import HdlScaffold.Proofs.Sessions

/-!
# The files a command touches

A command changes or adds files only where one of its target paths leads to, and without leave to
overwrite it changes none that was there, on whatever device (`Session.contents?_execute`). Each of the
two places where files are written is told once by its outcomes (`writeOutput_cases`,
`writeTemplate_cases`).

A settings file is looked for before its directory is made. Where the directory is missing and its path
leads upwards again, the file is missed and overwritten
(`Session.contents?_execute_upwards`).
-/

namespace HdlScaffold

open CommandLine (Arguments)

section Templates

variable {device : Device}

theorem isFileName_settingsFileName : settingsFileName.IsFileName := by
  constructor <;> decide

theorem grows_makeDirectories (device : Device) (s : Session) (d : Path) :
    s.files.Grows (device.makeDirectories s d).2 := by
  unfold Device.makeDirectories
  split
  · exact .refl _
  · exact FileTree.grows_makeChain _ _
  · exact FileTree.grows_makeChain _ _

/-- A settings file is refused or its directory cannot be made, or the file is written. Directories are
made in between, so the path may lead elsewhere when the file is written than when it was looked for. -/
theorem writeTemplate_cases (d : Path) (force : Bool) (s : Session) :
    (∃ failure s', (writeTemplate d force : Attempt (SessionOn device) Path) s
        = (.error failure, s') ∧ s.files.Grows s'.files) ∨
    ∃ s₁ text, s.files.Grows s₁.files ∧ Settings.toText {} = .ok text ∧
      (force = false → s.files.exists? (d.join settingsFileName) = false) ∧
      device.Writes s₁ (d.join settingsFileName) text.encode
        ((writeTemplate d force : Attempt (SessionOn device) Path) s) := by
  have hguard := @guardTarget_eq device (d.join settingsFileName) force s
  by_cases hoccupied : (s.files.exists? (d.join settingsFileName) && !force) = true
  · rw [if_pos hoccupied] at hguard
    exact Or.inl ⟨_, s, bind_of_error hguard, .refl _⟩
  · rw [if_neg hoccupied] at hguard
    have hgrows := grows_makeDirectories device s d
    unfold writeTemplate
    rw [bind_of_eq hguard, bind_of_eq (makeDirectories_eq d s)]
    rcases (device.makeDirectories s d).1 with e | _
    · exact Or.inl ⟨_, _, rfl, hgrows⟩
    rcases htext : Settings.toText {} with cause | text
    · exact Or.inl ⟨_, _, rfl, hgrows⟩
    exact Or.inr ⟨{ s with files := (device.makeDirectories s d).2 }, text, hgrows, rfl,
      fun hforce => by simpa [hforce] using hoccupied, writes_write ..⟩

end Templates

section Commands

variable {α β : Type} {device : Device} {careful : Prop} {P : Path → Prop} {s : Session}

theorem KeepsFiles.spares {x : Attempt (SessionOn device) α} (hx : KeepsFiles x) (s : Session) :
    s.files.Spares careful P (x s).2.files := by
  rw [hx s]
  exact .refl _

theorem spares_bind {x : Attempt (SessionOn device) α} {f : α → Attempt (SessionOn device) β}
    (hx : s.files.Spares careful P (x s).2.files)
    (hf : ∀ a s', x s = (.ok a, s') → s'.files.Spares careful P (f a s').2.files) :
    s.files.Spares careful P ((x >>= f) s).2.files := by
  rcases bind_cases x f s with ⟨failure, s', h, hbind⟩ | ⟨a, s', h, hbind⟩
  · rw [h] at hx
    rwa [hbind]
  · rw [h] at hx
    rw [hbind]
    exact hx.trans (hf a s' h)

theorem Device.Writes.spares {p : Path} {contents : Bytes} {r : Except Failure Path × Session}
    (h : device.Writes s p contents r) (hP : P p)
    (hnew : ∀ l, s.files.fileTarget p = .ok l → careful → s.files.contents? l = none) :
    s.files.Spares careful P r.2.files := by
  have hput : ∀ {l c}, s.files.fileTarget p = .ok l →
      s.files.Spares careful P (s.files.put l (.file c)) := fun htarget => by
    obtain ⟨hl, hfree⟩ := FileTree.names_of_fileTarget htarget
    exact hl.spares hfree hP (hnew _ htarget)
  cases h with
  | refused e => exact .refl _
  | brokenOff h =>
    obtain ⟨l, n, e, htarget, -, -, -, hfiles⟩ := h
    rw [hfiles]
    exact hput htarget
  | done htarget hfiles =>
    rw [hfiles]
    exact hput htarget

theorem spares_writeOutput {d : Path} {force : Bool} {n : Text} (hforce : careful → force = false)
    (hP : P (d.join n)) (contents : Text) (s : Session) : s.files.Spares careful P
      ((writeOutput d force n contents : Attempt (SessionOn device) Path) s).2.files := by
  rcases @writeOutput_cases device d force n contents s with hoccupied | ⟨hguard, hwrites⟩
  · rw [hoccupied]
    exact .refl _
  · refine hwrites.spares hP fun l htarget hcareful => ?_
    have hnone := hguard (hforce hcareful)
    rw [(FileTree.names_of_fileTarget htarget).1.exists?_eq, Option.isSome_eq_false_iff,
      Option.isNone_iff_eq_none] at hnone
    rw [FileTree.contents?, hnone]

theorem spares_writeTemplate {d : Path} {force : Bool} (hP : P (d.join settingsFileName))
    (hcareful : careful → force = false ∧ s.files.StepsUpSafely d) : s.files.Spares careful P
      ((writeTemplate d force : Attempt (SessionOn device) Path) s).2.files := by
  rcases @writeTemplate_cases device d force s with
    ⟨failure, s', h, hgrows⟩ | ⟨s₁, text, hgrows, -, hguard, hwrites⟩
  · rw [h]
    exact hgrows.spares
  · refine hgrows.spares.trans (hwrites.spares hP fun l htarget hc => ?_)
    obtain ⟨hforce, hsafe⟩ := hcareful hc
    obtain ⟨k, hk, rfl, -⟩ :=
      FileTree.exists_holds_of_fileTarget isFileName_settingsFileName htarget
    exact hgrows.contents?_eq_none hk isFileName_settingsFileName hsafe (hguard hforce)

variable {env : Environment} {args : Arguments} {settings : Settings}

theorem spares_writeModule {r : ModuleRequest} (hforce : careful → args.force = false)
    (hmodule : ∀ m, r.toModule = .ok m →
      P (args.outputDirectory.join (m.name ++ ['.'] ++ r.language.extension)))
    (hbench : ∀ m, r.toModule = .ok m → r.addTestbench = true →
      P (args.outputDirectory.join ("tb_".toList ++ m.name ++ ['.'] ++ r.language.extension)))
    (s : Session) : s.files.Spares careful P
      ((writeModule args settings r : Attempt (SessionOn device) Unit) s).2.files := by
  refine spares_bind ((keepsFiles_during _ _).spares s) fun m s₁ hm => ?_
  have hr := mapError_eq_ok_iff.1 (eq_of_during hm).1
  refine spares_bind ((keepsFiles_during _ _).spares s₁) fun ts s₂ _ => ?_
  refine spares_bind (spares_writeOutput hforce (hmodule m hr) _ s₂) fun _ s₃ _ => ?_
  split_ifs with hadd
  · exact spares_bind (spares_writeOutput hforce (hbench m hr hadd) _ s₃) fun _ s₄ _ => .refl _
  · exact .refl _

/-- The module of a file and the language that the file's name tells. -/
def FileTree.Declares (t : FileTree) (file : Path) (language : Language) (m : Module) : Prop :=
  ∃ source, Language.ofPath? file = some language ∧ t.read file = .ok source ∧
    Module.ofSource? source = .ok (some m)

theorem spares_writeTestbench {file : Path} (hforce : careful → args.force = false)
    (hbench : ∀ language m, s.files.Declares file language m →
      P (args.outputDirectory.join ("tb_".toList ++ m.name ++ ['.'] ++ language.extension))) :
    s.files.Spares careful P
      ((writeTestbench args settings file : Attempt (SessionOn device) Unit) s).2.files := by
  refine spares_bind ((keepsFiles_requireSource file).spares s) fun f s₁ hf => ?_
  obtain ⟨language, source, hl, hr, hread⟩ := source_of_requireSource hf
  obtain ⟨rfl, hm⟩ := SourceFile.module_of_reading hread
  exact spares_bind (spares_writeOutput hforce (hbench _ _ ⟨source, hl, hr, hm⟩) _ s₁)
    fun _ s₂ _ => .refl _

/-- The directory that a settings file is written into. -/
def CommandLine.Arguments.templateDirectory? (args : Arguments) (env : Environment) : Option Path :=
  match args.command with
  | .settingsTemplate directory => directory <|> env.homeDirectory.map settingsDirectory
  | _ => none

/-- The command is to write to the path. -/
def Session.Target (s : Session) (env : Environment) (args : Arguments) (p : Path) : Prop :=
  match args.command with
  | .module r => ∃ m, r.toModule = .ok m ∧
      (p = args.outputDirectory.join (m.name ++ ['.'] ++ r.language.extension) ∨
        r.addTestbench = true ∧
          p = args.outputDirectory.join ("tb_".toList ++ m.name ++ ['.'] ++ r.language.extension))
  | .testbench file => ∃ language m, s.files.Declares file language m ∧
      p = args.outputDirectory.join ("tb_".toList ++ m.name ++ ['.'] ++ language.extension)
  | .settingsTemplate _ => ∃ d, args.templateDirectory? env = some d ∧ p = d.join settingsFileName
  | .instantiate .. | .scan .. => False

theorem keepsFiles_printInstantiation (file : Path) (name : Option Text) :
    KeepsFiles (printInstantiation settings file name : Attempt (SessionOn device) Unit) := by
  refine (keepsFiles_requireSource file).bind fun f => ?_
  split
  · exact (keepsFiles_pure _).bind fun _ => keepsFiles_putOut _
  · split_ifs
    · exact (keepsFiles_throw _).bind fun _ => keepsFiles_putOut _
    · exact (keepsFiles_pure _).bind fun _ => keepsFiles_putOut _

theorem keepsFiles_printSource (file : Path) (json : Bool) :
    KeepsFiles (printSource file json : Attempt (SessionOn device) Unit) :=
  (keepsFiles_requireSource file).bind fun _ => keepsFiles_putOut _

theorem spares_writeSettings {directory : Option Path}
    (hP : ∀ d, (directory <|> env.homeDirectory.map settingsDirectory) = some d →
      P (d.join settingsFileName))
    (hcareful : careful → args.force = false ∧
      ∀ d, (directory <|> env.homeDirectory.map settingsDirectory) = some d →
        s.files.StepsUpSafely d) : s.files.Spares careful P
      ((writeSettings env args directory : Attempt (SessionOn device) Unit) s).2.files := by
  unfold writeSettings
  rcases h : (directory <|> env.homeDirectory.map settingsDirectory) with _ | d
  · exact .refl _
  · refine spares_bind (spares_writeTemplate (hP d h) fun hc => ?_) fun _ s₁ _ =>
      (keepsFiles_putOut _).spares s₁
    exact ⟨(hcareful hc).1, (hcareful hc).2 d h⟩

theorem Session.spares_execute (s : Session) (env : Environment) (args : Arguments)
    (device : Device) (hcareful : careful → args.force = false ∧
      ∀ d, args.templateDirectory? env = some d → s.files.StepsUpSafely d) :
    s.files.Spares careful (s.Target env args) (s.execute env args device).2.files := by
  refine spares_bind ((keepsFiles_effectiveSettings env args).spares s) fun settings s₁ hs₁ => ?_
  have hfiles := files_of_effectiveSettings hs₁
  have hforce := fun hc => (hcareful hc).1
  rcases hcommand : args.command with r | file | ⟨file, name⟩ | ⟨file, json⟩ | directory
  · refine spares_writeModule hforce (fun m hm => ?_) (fun m hm hadd => ?_) s₁
    all_goals simp only [Target, hcommand]
    · exact ⟨m, hm, Or.inl rfl⟩
    · exact ⟨m, hm, Or.inr ⟨hadd, rfl⟩⟩
  · refine spares_writeTestbench hforce fun language m hm => ?_
    simp only [Target, hcommand]
    exact ⟨language, m, hfiles ▸ hm, rfl⟩
  · exact (keepsFiles_printInstantiation file name).spares s₁
  · exact (keepsFiles_printSource file json).spares s₁
  · have htemplate : args.templateDirectory? env
        = (directory <|> env.homeDirectory.map settingsDirectory) := by
      simp only [Arguments.templateDirectory?, hcommand]
    refine spares_writeSettings (fun d hd => ?_) fun hc => ⟨hforce hc, fun d hd => ?_⟩
    · simp only [Target, hcommand]
      exact ⟨d, htemplate.trans hd, rfl⟩
    · rw [hfiles]
      exact (hcareful hc).2 d (htemplate.trans hd)

end Commands

section Main

/-- Without leave to overwrite, files stay as they are, unless a settings file is to be written through a
directory that is missing and upwards again. In any case files change only where a target leads to. -/
theorem Session.contents?_execute (s : Session) (env : Environment) (args : Arguments)
    (device : Device) :
    (args.force = false →
      (∀ d, args.templateDirectory? env = some d → s.files.StepsUpSafely d) →
      ∀ l c, s.files.contents? l = some c →
        (s.execute env args device).2.files.contents? l = some c) ∧
    ∀ l, (s.execute env args device).2.files.contents? l ≠ s.files.contents? l →
      ∃ p, s.Target env args p ∧
        ∃ c, (s.execute env args device).2.files.resolve p = .ok (l, .file c) := by
  have hspares := s.spares_execute env args device id
  refine ⟨fun hforce hsafe l c hc => ?_, hspares.changed⟩
  obtain ⟨c', hc', hsame⟩ := hspares.file l c hc
  rw [hc', hsame ⟨hforce, hsafe⟩]

def ownContents : Bytes := Text.encode "keep\n".toList

def ownPlace : Location := ["work".toList, "b".toList, "config.toml".toList]

/-- A session with a settings file that its user wants to keep. -/
def settledSession : Session where
  files := (FileTree.empty.put ["work".toList, "b".toList] .directory).put ownPlace (.file ownContents)

def templateArguments (directory : String) : Arguments where
  verbose := false
  settingsFile := none
  tabWidth := none
  force := false
  outputDirectory := ['.']
  command := .settingsTemplate (some directory.toList)

theorem Session.contents?_execute_settled :
    settledSession.files.StepsUpSafely "b/../c/d".toList ∧
    (settledSession.execute {} (templateArguments "b/../c/d")).2.files.contents? ownPlace
      = some ownContents ∧
    ∃ p, settledSession.Target {} (templateArguments "b/../c/d") p ∧
      ∃ c, (settledSession.execute {} (templateArguments "b/../c/d")).2.files.resolve p
        = .ok (["work".toList, "c".toList, "d".toList, "config.toml".toList], .file c) := by
  have hsafe : settledSession.files.StepsUpSafely "b/../c/d".toList :=
    Or.inr ⟨by decide, ["b".toList, "..".toList], ["c".toList, "d".toList], ["work".toList], by decide,
      rfl, by decide⟩
  obtain ⟨hkeeps, hchanges⟩ := settledSession.contents?_execute {} (templateArguments "b/../c/d") .sound
  refine ⟨hsafe, hkeeps rfl (fun d hd => ?_) _ _ (by decide), hchanges _ (by decide +kernel)⟩
  obtain rfl := Option.some.inj hd
  exact hsafe

/-- The file is overwritten without leave: its path leads to nothing as long as `a` is missing. -/
theorem Session.contents?_execute_upwards :
    Arguments.read ["config-template".toList, "a/../b".toList] = .ok (templateArguments "a/../b") ∧
    (settledSession.execute {} (templateArguments "a/../b")).1 = .ok () ∧
    settledSession.files.contents? ownPlace = some ownContents ∧
    (settledSession.execute {} (templateArguments "a/../b")).2.files.contents? ownPlace
      ≠ some ownContents := by
  decide +kernel

end Main

end HdlScaffold
