import HdlScaffold.Proofs.Footprint

/-!
# Runs that fail

A run that fails leaves every file as it was, with three exceptions: the device gave out in the middle of
a file, a module was written and its testbench was not, and a settings file was written whose path could
not be put out (`Session.contents?_execute_error`). The last two happen on a sound device too
(`Session.contents?_execute_halfway`).
-/

namespace HdlScaffold

open CommandLine (Arguments)

/-- The trees have the same files, but for the one that the path leads to in the second tree. -/
def FileTree.DiffersAt (t t' : FileTree) (p : Path) (contents : Bytes) : Prop :=
  ∃ l, t'.resolve p = .ok (l, .file contents) ∧ ∀ k, k ≠ l → t'.contents? k = t.contents? k

theorem FileTree.differsAt_put {t : FileTree} {p : Path} {l : Location} (h : t.fileTarget p = .ok l)
    (contents : Bytes) : t.DiffersAt (t.put l (.file contents)) p contents := by
  obtain ⟨hl, hfree⟩ := names_of_fileTarget h
  refine ⟨l, hl.resolve_put hfree, fun k hk => ?_⟩
  rw [contents?_put hl.ne_nil, if_neg hk]

section Failing

variable {α β : Type} {device : Device} {s s' : Session} {failure : Failure}

theorem ok_ne_error {a : α} : ((.ok a, s) : Except Failure α × Session) ≠ (.error failure, s') := by
  simp

theorem error_of_bind {x : Attempt (SessionOn device) α} {f : α → Attempt (SessionOn device) β}
    (h : (x >>= f) s = (.error failure, s')) : x s = (.error failure, s') ∨
      ∃ a s₁, x s = (.ok a, s₁) ∧ f a s₁ = (.error failure, s') := by
  rcases bind_cases x f s with ⟨failure', s₁, hx, hbind⟩ | ⟨a, s₁, hx, hbind⟩
  · obtain ⟨hfailure, rfl⟩ := Prod.mk.inj (hbind.symm.trans h)
    rw [Except.error.inj hfailure] at hx
    exact Or.inl hx
  · exact Or.inr ⟨a, s₁, hx, hbind.symm.trans h⟩

theorem KeepsFiles.files_of_error {x : Attempt (SessionOn device) α} (hx : KeepsFiles x)
    (h : x s = (.error failure, s')) : s'.files = s.files := by
  have hs := hx s
  rwa [h] at hs

/-- The file could not be written, or is not to be overwritten. -/
def Failure.Prevents (f : Failure) (file : Path) : Prop :=
  f = { cause := .occupied file } ∨ ∃ e, f = { activity := some (.writing file), cause := .io e }

theorem Device.Writes.of_error {p : Path} {contents : Bytes}
    (h : device.Writes s p contents (.error failure, s')) :
    failure.Prevents p ∧ s' = s ∨ device.BreaksOff s p contents failure s'.files := by
  cases h with
  | refused e => exact Or.inl ⟨Or.inr ⟨e, rfl⟩, rfl⟩
  | brokenOff h => exact Or.inr h

theorem Device.Writes.of_ok {p q : Path} {contents : Bytes}
    (h : device.Writes s p contents (.ok q, s')) :
    q = p ∧ s.files.DiffersAt s'.files p contents := by
  cases h with
  | done htarget hfiles =>
    rw [hfiles]
    exact ⟨rfl, FileTree.differsAt_put htarget contents⟩

/-- The file was not touched, or the device gave out while it was written. -/
theorem error_of_writeOutput {d : Path} {force : Bool} {n contents : Text}
    (h : (writeOutput d force n contents : Attempt (SessionOn device) Path) s
      = (.error failure, s')) :
    failure.Prevents (d.join n) ∧ s' = s ∨
      device.BreaksOff s (d.join n) contents.encode failure s'.files := by
  rcases @writeOutput_cases device d force n contents s with hoccupied | ⟨-, hwrites⟩
  · obtain ⟨hfailure, rfl⟩ := Prod.mk.inj (hoccupied.symm.trans h)
    exact Or.inl ⟨Or.inl (Except.error.inj hfailure).symm, rfl⟩
  · rw [h] at hwrites
    exact hwrites.of_error

theorem differsAt_of_writeOutput {d p : Path} {force : Bool} {n contents : Text}
    (h : (writeOutput d force n contents : Attempt (SessionOn device) Path) s = (.ok p, s')) :
    s.files.DiffersAt s'.files (d.join n) contents.encode := by
  rcases @writeOutput_cases device d force n contents s with hoccupied | ⟨-, hwrites⟩
  · exact absurd (h.symm.trans hoccupied) ok_ne_error
  · rw [h] at hwrites
    exact hwrites.of_ok.2

theorem error_of_writeTemplate {d : Path} {force : Bool}
    (h : (writeTemplate d force : Attempt (SessionOn device) Path) s = (.error failure, s')) :
    s'.files.contents? = s.files.contents? ∨
    ∃ s₁ text, s₁.files.contents? = s.files.contents? ∧ Settings.toText {} = .ok text ∧
      device.BreaksOff s₁ (d.join settingsFileName) text.encode failure s'.files := by
  rcases @writeTemplate_cases device d force s with
    ⟨_, _, h', hgrows⟩ | ⟨s₁, text, hgrows, htext, -, hwrites⟩
  · obtain ⟨-, rfl⟩ := Prod.mk.inj (h'.symm.trans h)
    exact Or.inl (funext hgrows.contents?_eq)
  · rw [h] at hwrites
    rcases hwrites.of_error with ⟨-, rfl⟩ | hbreaks
    · exact Or.inl (funext hgrows.contents?_eq)
    · exact Or.inr ⟨s₁, text, funext hgrows.contents?_eq, htext, hbreaks⟩

theorem differsAt_of_writeTemplate {d p : Path} {force : Bool}
    (h : (writeTemplate d force : Attempt (SessionOn device) Path) s = (.ok p, s')) :
    p = d.join settingsFileName ∧ ∃ text, Settings.toText {} = .ok text ∧
      s.files.DiffersAt s'.files (d.join settingsFileName) text.encode := by
  rcases @writeTemplate_cases device d force s with
    ⟨_, _, h', -⟩ | ⟨s₁, text, hgrows, htext, -, hwrites⟩
  · exact absurd (h.symm.trans h') ok_ne_error
  · rw [h] at hwrites
    obtain ⟨hp, l, hl, hother⟩ := hwrites.of_ok
    exact ⟨hp, text, htext, l, hl, fun k hk => (hother k hk).trans (hgrows.contents?_eq k)⟩

/-- The text could not be put out. -/
def Device.Mutes (device : Device) (s : Session) (t : Text) (failure : Failure) (s' : Session) :
    Prop :=
  ∃ e, (device.print s t).1 = .error e ∧ failure = { cause := .io e } ∧
    s' = { s with printed := (device.print s t).2 }

theorem mutes_of_putOut {t : Text}
    (h : (putOut t : Attempt (SessionOn device) Unit) s = (.error failure, s')) :
    device.Mutes s t failure s' := by
  unfold putOut at h
  rw [bind_of_eq (print_eq t s), during_eq] at h
  obtain ⟨hfailure, rfl⟩ := Prod.mk.inj h
  rcases hprint : (device.print s t).1 with e | _ <;> rw [hprint] at hfailure
  · exact ⟨e, hprint, (Except.error.inj hfailure).symm, rfl⟩
  · cases hfailure

end Failing

section Commands

variable {device : Device} {s s' : Session} {env : Environment} {args : Arguments}
  {settings : Settings} {failure : Failure}

/-- The file that a command writes first. -/
def CommandLine.Arguments.FirstOutput (args : Arguments) (env : Environment) (t : FileTree)
    (settings : Settings) (file : Path) (contents : Text) : Prop :=
  match args.command with
  | .module r => ∃ m ts, r.toModule = .ok m ∧ r.normalTimescale = .ok ts ∧
      file = args.outputDirectory.join ((r.fileOptions settings ts).moduleFileName m) ∧
      contents = (r.fileOptions settings ts).moduleFile m
  | .testbench source => ∃ language bytes f o, Language.ofPath? source = some language ∧
      t.read source = .ok bytes ∧
      (SourceFile.reading language (.ofBytes bytes)).answer = .ok (some f) ∧
      o = { settings.fileOptions with language := f.language, timescale := f.timescale } ∧
      file = args.outputDirectory.join (o.testbenchFileName f.module) ∧
      contents = o.testbench f.module
  | .settingsTemplate _ => ∃ d, args.templateDirectory? env = some d ∧
      file = d.join settingsFileName ∧ Settings.toText {} = .ok contents
  | .instantiate .. | .scan .. => False

/-- The testbench that a command writes after a module. -/
def CommandLine.Arguments.SecondOutput (args : Arguments) (settings : Settings)
    (file : Path) (contents : Text) : Prop :=
  ∃ r m ts, args.command = .module r ∧ r.addTestbench = true ∧ r.toModule = .ok m ∧
    r.normalTimescale = .ok ts ∧
    file = args.outputDirectory.join ((r.fileOptions settings ts).testbenchFileName m) ∧
    contents = (r.fileOptions settings ts).testbench m

theorem error_of_writeModule {r : ModuleRequest} (hcommand : args.command = .module r)
    (h : (writeModule args settings r : Attempt (SessionOn device) Unit) s = (.error failure, s')) :
    s'.files = s.files ∨ ∃ file contents, args.FirstOutput env s.files settings file contents ∧
      (device.BreaksOff s file contents.encode failure s'.files ∨
      ∃ s₁ bench text, s.files.DiffersAt s₁.files file contents.encode ∧
        args.SecondOutput settings bench text ∧
        (failure.Prevents bench ∧ s' = s₁ ∨
          device.BreaksOff s₁ bench text.encode failure s'.files)) := by
  unfold writeModule at h
  rcases error_of_bind h with hfail | ⟨m, s₁, hm, h₁⟩
  · exact Or.inl ((keepsFiles_during _ _).files_of_error hfail)
  obtain ⟨hr, rfl⟩ := eq_of_during hm
  rcases error_of_bind h₁ with hfail | ⟨ts, s₂, hts, h₂⟩
  · exact Or.inl ((keepsFiles_during _ _).files_of_error hfail)
  obtain ⟨htimescale, rfl⟩ := eq_of_during hts
  have hfirst : args.FirstOutput env s₂.files settings
      (args.outputDirectory.join ((r.fileOptions settings ts).moduleFileName m))
      ((r.fileOptions settings ts).moduleFile m) := by
    simp only [Arguments.FirstOutput, hcommand]
    exact ⟨m, ts, mapError_eq_ok_iff.1 hr, htimescale, rfl, rfl⟩
  rcases error_of_bind h₂ with hfail | ⟨p, s₃, hwrite, h₃⟩
  · rcases error_of_writeOutput hfail with ⟨-, rfl⟩ | hbreaks
    · exact Or.inl rfl
    · exact Or.inr ⟨_, _, hfirst, Or.inl hbreaks⟩
  -- the module is written, and what can still fail is its testbench
  split_ifs at h₃ with hadd
  · rcases error_of_bind h₃ with hfail | ⟨_, _, _, hpure⟩
    · exact Or.inr ⟨_, _, hfirst, Or.inr ⟨s₃, _, _, differsAt_of_writeOutput hwrite,
        ⟨r, m, ts, hcommand, hadd, mapError_eq_ok_iff.1 hr, htimescale, rfl, rfl⟩,
        error_of_writeOutput hfail⟩⟩
    · exact absurd hpure ok_ne_error
  · exact absurd h₃ ok_ne_error

theorem error_of_writeTestbench {source : Path} (hcommand : args.command = .testbench source)
    (h : (writeTestbench args settings source : Attempt (SessionOn device) Unit) s
      = (.error failure, s')) :
    s'.files = s.files ∨ ∃ s₁ file contents, s₁.files = s.files ∧
      args.FirstOutput env s.files settings file contents ∧
      device.BreaksOff s₁ file contents.encode failure s'.files := by
  unfold writeTestbench at h
  have hkept := @keepsFiles_requireSource device source s
  rcases error_of_bind h with hfail | ⟨f, s₁, hf, h₁⟩
  · exact Or.inl ((keepsFiles_requireSource source).files_of_error hfail)
  rw [hf] at hkept
  rcases error_of_bind h₁ with hfail | ⟨_, _, _, hpure⟩
  · rcases error_of_writeOutput hfail with ⟨-, rfl⟩ | hbreaks
    · exact Or.inl hkept
    · obtain ⟨language, bytes, hl, hr, hread⟩ := source_of_requireSource hf
      refine Or.inr ⟨s₁, _, _, hkept, ?_, hbreaks⟩
      simp only [Arguments.FirstOutput, hcommand]
      exact ⟨language, bytes, f, _, hl, hr, hread, rfl, rfl, rfl⟩
  · exact absurd hpure ok_ne_error

theorem error_of_writeSettings {directory : Option Path}
    (hcommand : args.command = .settingsTemplate directory)
    (h : (writeSettings env args directory : Attempt (SessionOn device) Unit) s
      = (.error failure, s')) :
    s'.files.contents? = s.files.contents? ∨ ∃ s₁ file contents,
      args.FirstOutput env s.files settings file contents ∧
      (s₁.files.contents? = s.files.contents? ∧
        device.BreaksOff s₁ file contents.encode failure s'.files ∨
      s.files.DiffersAt s₁.files file contents.encode ∧
        device.Mutes s₁ (file ++ ['\n']) failure s') := by
  have hfirst : ∀ d text, (directory <|> env.homeDirectory.map settingsDirectory) = some d →
      Settings.toText {} = .ok text →
      args.FirstOutput env s.files settings (d.join settingsFileName) text := by
    intro d text hd htext
    simp only [Arguments.FirstOutput, Arguments.templateDirectory?, hcommand]
    exact ⟨d, hd, rfl, htext⟩
  unfold writeSettings at h
  rcases hd : (directory <|> env.homeDirectory.map settingsDirectory) with _ | d <;> rw [hd] at h
  · obtain ⟨-, rfl⟩ := Prod.mk.inj h
    exact Or.inl rfl
  · rcases error_of_bind h with hfail | ⟨p, s₁, hwrite, h₁⟩
    · rcases error_of_writeTemplate hfail with hsame | ⟨s₁, text, hsame, htext, hbreaks⟩
      · exact Or.inl hsame
      · exact Or.inr ⟨s₁, _, text, hfirst d text hd htext, Or.inl ⟨hsame, hbreaks⟩⟩
    · obtain ⟨rfl, text, htext, hdiffers⟩ := differsAt_of_writeTemplate hwrite
      exact Or.inr ⟨s₁, _, text, hfirst d text hd htext, Or.inr ⟨hdiffers, mutes_of_putOut h₁⟩⟩

/-- A run that fails leaves the files as they were, unless the device gave out while the first file was
written; or the first file was written in full, and then its testbench was refused or the device gave
out while that was written; or a settings file was written in full and its path could not be put out. -/
theorem Session.contents?_execute_error
    (h : s.execute env args device = (.error failure, s')) :
    s'.files.contents? = s.files.contents? ∨
    ∃ settings s₁ file contents,
      ((effectiveSettings env args : Attempt (SessionOn device) Settings) s).1 = .ok settings ∧
      args.FirstOutput env s.files settings file contents ∧
      (s₁.files.contents? = s.files.contents? ∧
        device.BreaksOff s₁ file contents.encode failure s'.files ∨
      s.files.DiffersAt s₁.files file contents.encode ∧
        ((∃ bench text, args.SecondOutput settings bench text ∧
          (failure.Prevents bench ∧ s' = s₁ ∨
            device.BreaksOff s₁ bench text.encode failure s'.files)) ∨
        (args.templateDirectory? env).isSome ∧ device.Mutes s₁ (file ++ ['\n']) failure s')) := by
  unfold Session.execute HdlScaffold.execute at h
  rcases error_of_bind h with hfail | ⟨settings, s₁, hs₁, h₁⟩
  · exact Or.inl (by rw [(keepsFiles_effectiveSettings env args).files_of_error hfail])
  have hfiles := files_of_effectiveSettings hs₁
  have hsettings : ((effectiveSettings env args : Attempt (SessionOn device) Settings) s).1
      = .ok settings := by rw [hs₁]
  rw [← hfiles]
  rcases hcommand : args.command with r | source | ⟨source, name⟩ | ⟨source, json⟩ | directory <;>
    rw [hcommand] at h₁
  · rcases error_of_writeModule hcommand h₁ with hsame | ⟨file, contents, hfirst, hrest⟩
    · exact Or.inl (by rw [hsame])
    rcases hrest with hbreaks | ⟨s₂, bench, text, hdiffers, hsecond, hrest⟩
    · exact Or.inr ⟨settings, s₁, file, contents, hsettings, hfirst, Or.inl ⟨rfl, hbreaks⟩⟩
    · exact Or.inr ⟨settings, s₂, file, contents, hsettings, hfirst,
        Or.inr ⟨hdiffers, Or.inl ⟨bench, text, hsecond, hrest⟩⟩⟩
  · rcases error_of_writeTestbench hcommand h₁ with
      hsame | ⟨s₂, file, contents, hsame, hfirst, hbreaks⟩
    · exact Or.inl (by rw [hsame])
    · exact Or.inr ⟨settings, s₂, file, contents, hsettings, hfirst,
        Or.inl ⟨by rw [hsame], hbreaks⟩⟩
  · exact Or.inl (by rw [(keepsFiles_printInstantiation source name).files_of_error h₁])
  · exact Or.inl (by rw [(keepsFiles_printSource source json).files_of_error h₁])
  · rcases error_of_writeSettings hcommand h₁ with hsame | ⟨s₂, file, contents, hfirst, hrest⟩
    · exact Or.inl hsame
    refine Or.inr ⟨settings, s₂, file, contents, hsettings, hfirst, ?_⟩
    rcases hrest with hbreaks | ⟨hdiffers, hmutes⟩
    · exact Or.inl hbreaks
    · simp only [Arguments.FirstOutput, hcommand] at hfirst
      obtain ⟨d, hd, -⟩ := hfirst
      exact Or.inr ⟨hdiffers, Or.inr ⟨by rw [hd]; rfl, hmutes⟩⟩

/-- A session with a file that a testbench would have to replace. -/
def benchedSession : Session where
  files := FileTree.empty.put ["work".toList, "tb_m.v".toList] (.file ownContents)

def benchArguments : Arguments where
  verbose := false
  settingsFile := none
  tabWidth := none
  force := false
  outputDirectory := ['.']
  command := .module { name := ['m'], addTestbench := true }

/-- A device that takes only so many bytes of a file. -/
def crampedDevice (room : Nat) : Device
  | _, .write .. => some (.brokenOff room .writeZero)
  | _, _ => none

def moduleArguments : Arguments := { benchArguments with command := .module { name := ['m'] } }

/-- The testbench is refused after the module was written, and the device gives out while a module is
written. -/
theorem Session.contents?_execute_error_bench :
    (∃ settings file contents,
      benchArguments.FirstOutput {} benchedSession.files settings file contents ∧
      (benchedSession.execute {} benchArguments).1
        = .error { cause := .occupied "./tb_m.v".toList } ∧
      benchedSession.files.DiffersAt (benchedSession.execute {} benchArguments).2.files file
        contents.encode) ∧
    ∃ settings s₁ file contents,
      moduleArguments.FirstOutput {} benchedSession.files settings file contents ∧
      (crampedDevice 6).BreaksOff s₁ file contents.encode
        { activity := some (.writing "./m.v".toList), cause := .io .writeZero }
        (benchedSession.execute {} moduleArguments (crampedDevice 6)).2.files := by
  constructor
  · have hrefused : (benchedSession.execute {} benchArguments).1
        = .error { cause := .occupied "./tb_m.v".toList } := by decide +kernel
    have hwritten : (benchedSession.execute {} benchArguments).2.files.contents?
        ["work".toList, "m.v".toList]
        ≠ benchedSession.files.contents? ["work".toList, "m.v".toList] := by decide +kernel
    rcases contents?_execute_error (Prod.ext hrefused rfl) with
      hsame | ⟨settings, s₁, file, contents, -, hfirst, ⟨-, _, _, _, -, hdevice, -⟩ |
        ⟨hdiffers, ⟨_, _, -, ⟨-, rfl⟩ | ⟨_, _, _, -, hdevice, -⟩⟩ | ⟨htemplate, -⟩⟩⟩
    · exact absurd (congrFun hsame _) hwritten
    · cases hdevice
    · exact ⟨settings, file, contents, hfirst, hrefused, hdiffers⟩
    · cases hdevice
    · cases htemplate
  · have hfull : (benchedSession.execute {} moduleArguments (crampedDevice 6)).1
        = .error { activity := some (.writing "./m.v".toList), cause := .io .writeZero } := by
      decide +kernel
    have hwritten : (benchedSession.execute {} moduleArguments (crampedDevice 6)).2.files.contents?
        ["work".toList, "m.v".toList]
        ≠ benchedSession.files.contents? ["work".toList, "m.v".toList] := by decide +kernel
    rcases contents?_execute_error (Prod.ext hfull rfl) with
      hsame | ⟨settings, s₁, file, contents, -, hfirst, ⟨-, hbreaks⟩ |
        ⟨-, ⟨_, _, ⟨r, _, _, hcommand, hadd, -⟩, -⟩ | ⟨htemplate, -⟩⟩⟩
    · exact absurd (congrFun hsame _) hwritten
    · exact ⟨settings, s₁, file, contents, hfirst, hbreaks⟩
    · cases hcommand
      cases hadd
    · cases htemplate

/-- What is left of the module is a beginning. -/
example : (benchedSession.execute {} moduleArguments (crampedDevice 6)).2.files.contents?
    ["work".toList, "m.v".toList] = some (Text.encode "module".toList) := by
  decide +kernel

def muteSession : Session where
  files := FileTree.empty
  outputError := some .writeZero

/-- Two runs fail and leave a new file: a testbench is not to be overwritten, and a path cannot be put
out. -/
theorem Session.contents?_execute_halfway :
    (Arguments.read (["module", "m", "--add-testbench"].map String.toList) = .ok benchArguments ∧
      (benchedSession.execute {} benchArguments).1
        = .error { cause := .occupied "./tb_m.v".toList } ∧
      benchedSession.files.contents? ["work".toList, "m.v".toList] = none ∧
      (benchedSession.execute {} benchArguments).2.files.contents? ["work".toList, "m.v".toList]
        ≠ none) ∧
    (muteSession.execute {} (templateArguments "b")).1 = .error { cause := .io .writeZero } ∧
    muteSession.files.contents? ownPlace = none ∧
    (muteSession.execute {} (templateArguments "b")).2.files.contents? ownPlace ≠ none := by
  decide +kernel

end Commands

end HdlScaffold
