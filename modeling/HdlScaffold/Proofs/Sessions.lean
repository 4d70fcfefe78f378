import HdlScaffold.Execution
import HdlScaffold.Proofs.TreeChanges

/-!
# Work in a session

What a piece of work does to the files of a session, on whatever device they are. Finding the settings
and reading sources leaves the files alone (`KeepsFiles`). A file is written in full, or the device broke
off and the file keeps a beginning, or nothing is done (`Device.Writes`). On a sound device a file that may
be written is written (`writeOutput_of_holds`).
-/

namespace HdlScaffold

open CommandLine (Arguments)

variable {α β : Type} {device : Device}

section Binds

theorem bind_of_eq {x : Attempt (SessionOn device) α} {f : α → Attempt (SessionOn device) β}
    {s s' : Session} {a : α} (h : x s = (.ok a, s')) : (x >>= f) s = f a s' := by
  show (match x s with | (a, s') => ExceptT.bindCont f a s') = f a s'
  rw [h]
  rfl

theorem exists_of_bind {x : Attempt (SessionOn device) α} {f : α → Attempt (SessionOn device) β}
    {s s'' : Session} {b : β} (h : (x >>= f) s = (.ok b, s'')) :
    ∃ a s', x s = (.ok a, s') ∧ f a s' = (.ok b, s'') := by
  have hx : (match x s with | (a, s') => ExceptT.bindCont f a s') = (.ok b, s'') := h
  rcases hs : x s with ⟨e | a, s'⟩ <;> rw [hs] at hx
  · have : ((Except.error e, s') : Except Failure β × Session) = (.ok b, s'') := hx
    simp at this
  · exact ⟨a, s', rfl, hx⟩

theorem bind_of_error {x : Attempt (SessionOn device) α} {f : α → Attempt (SessionOn device) β}
    {s s' : Session} {failure : Failure} (h : x s = (.error failure, s')) :
    (x >>= f) s = (.error failure, s') := by
  show (match x s with | (a, s') => ExceptT.bindCont f a s') = _
  rw [h]
  rfl

/-- Work ends with its first part, or goes on after it. -/
theorem bind_cases (x : Attempt (SessionOn device) α) (f : α → Attempt (SessionOn device) β)
    (s : Session) :
    (∃ failure s', x s = (.error failure, s') ∧ (x >>= f) s = (.error failure, s')) ∨
    ∃ a s', x s = (.ok a, s') ∧ (x >>= f) s = f a s' := by
  rcases h : x s with ⟨failure | a, s'⟩
  · exact Or.inl ⟨failure, s', rfl, bind_of_error h⟩
  · exact Or.inr ⟨a, s', rfl, bind_of_eq h⟩

theorem mapError_eq_ok_iff {ε ε' : Type} {x : Except ε α} {f : ε → ε'} {a : α} :
    x.mapError f = .ok a ↔ x = .ok a := by
  cases x <;> simp [Except.mapError]

theorem eq_of_during {activity : Option Activity} {x : Except Cause α} {a : α} {s s' : Session}
    (h : (during activity x : Attempt (SessionOn device) α) s = (.ok a, s')) : x = .ok a ∧ s' = s := by
  rcases x with e | b
  · have : ((Except.error ⟨activity, e⟩, s) : Except Failure α × Session) = (.ok a, s') := h
    simp at this
  · have : ((Except.ok b, s) : Except Failure α × Session) = (.ok a, s') := h
    simp only [Prod.mk.injEq, Except.ok.injEq] at this
    exact ⟨by rw [this.1], this.2.symm⟩

theorem during_eq (activity : Option Activity) (x : Except Cause α) (s : Session) :
    (during activity x : Attempt (SessionOn device) α) s
      = (x.mapError fun cause => { activity, cause }, s) := by
  cases x <;> rfl

end Binds

section Keeping

/-- The work leaves the files of a session as they are. -/
def KeepsFiles (x : Attempt (SessionOn device) α) : Prop := ∀ s, (x s).2.files = s.files

theorem keepsFiles_pure (a : α) : KeepsFiles (pure a : Attempt (SessionOn device) α) := fun _ => rfl

theorem keepsFiles_during (activity : Option Activity) (x : Except Cause α) :
    KeepsFiles (during activity x : Attempt (SessionOn device) α) := by
  intro s
  cases x <;> rfl

theorem keepsFiles_report (e : Event) :
    KeepsFiles (Host.report e : Attempt (SessionOn device) Unit) := fun _ => rfl

theorem keepsFiles_read (p : Path) :
    KeepsFiles (Host.read p : Attempt (SessionOn device) (Except IoError Bytes)) := fun _ => rfl

theorem keepsFiles_isFile (p : Path) :
    KeepsFiles (Host.isFile p : Attempt (SessionOn device) Bool) := fun _ => rfl

theorem keepsFiles_throw (failure : Failure) :
    KeepsFiles (throw failure : Attempt (SessionOn device) α) := fun _ => rfl

theorem isPresent_eq (p : Path) (s : Session) :
    (Host.isPresent p : Attempt (SessionOn device) Bool) s = (.ok (s.files.exists? p), s) := rfl

theorem write_eq (p : Path) (contents : Bytes) (s : Session) :
    (Host.write p contents : Attempt (SessionOn device) (Except IoError Unit)) s
      = (.ok (device.write s p contents).1, { s with files := (device.write s p contents).2 }) := rfl

theorem makeDirectories_eq (p : Path) (s : Session) :
    (Host.makeDirectories p : Attempt (SessionOn device) (Except IoError Unit)) s
      = (.ok (device.makeDirectories s p).1,
        { s with files := (device.makeDirectories s p).2 }) := rfl

theorem print_eq (t : Text) (s : Session) :
    (Host.print t : Attempt (SessionOn device) (Except IoError Unit)) s
      = (.ok (device.print s t).1, { s with printed := (device.print s t).2 }) := rfl

theorem KeepsFiles.bind {x : Attempt (SessionOn device) α} {f : α → Attempt (SessionOn device) β}
    (hx : KeepsFiles x) (hf : ∀ a, KeepsFiles (f a)) : KeepsFiles (x >>= f) := by
  intro s
  have hs := hx s
  show (match x s with | (a, s') => ExceptT.bindCont f a s').2.files = s.files
  rcases hxs : x s with ⟨e | a, s'⟩ <;> rw [hxs] at hs
  · exact hs
  · exact (hf a s').trans hs

theorem keepsFiles_putOut (t : Text) :
    KeepsFiles (putOut t : Attempt (SessionOn device) Unit) := by
  refine KeepsFiles.bind (fun s => ?_) fun _ => keepsFiles_during _ _
  rw [print_eq]

theorem keepsFiles_loadSettings (p : Path) :
    KeepsFiles (loadSettings p : Attempt (SessionOn device) Settings) :=
  (keepsFiles_read p).bind fun _ => (keepsFiles_during _ _).bind fun _ =>
    (keepsFiles_during _ _).bind fun _ => (keepsFiles_during _ _).bind fun _ =>
      (keepsFiles_report _).bind fun _ => keepsFiles_pure _

theorem keepsFiles_findSettings (named home : Option Path) :
    KeepsFiles (findSettings named home : Attempt (SessionOn device) Settings) := by
  unfold findSettings
  split
  · exact keepsFiles_loadSettings _
  · refine (keepsFiles_isFile _).bind fun found => ?_
    split_ifs
    · exact keepsFiles_loadSettings _
    · exact (keepsFiles_report _).bind fun _ => keepsFiles_pure _
  · exact (keepsFiles_report _).bind fun _ => keepsFiles_pure _

theorem keepsFiles_effectiveSettings (env : Environment) (args : Arguments) :
    KeepsFiles (effectiveSettings env args : Attempt (SessionOn device) Settings) := by
  have hreport : ∀ settings, KeepsFiles (do
      Host.report (.effectiveSettings settings)
      return settings : Attempt (SessionOn device) Settings) := fun _ =>
    (keepsFiles_report _).bind fun _ => keepsFiles_pure _
  refine (keepsFiles_findSettings _ _).bind fun found => ?_
  split
  · exact (keepsFiles_pure _).bind hreport
  · exact (keepsFiles_during _ _).bind fun _ => (keepsFiles_pure _).bind hreport

theorem files_of_effectiveSettings {env : Environment} {args : Arguments} {s s' : Session}
    {settings : Settings}
    (h : (effectiveSettings env args : Attempt (SessionOn device) Settings) s = (.ok settings, s')) :
    s'.files = s.files := by
  have := @keepsFiles_effectiveSettings device env args s
  rwa [h] at this

end Keeping

section Writing

variable {s s' : Session} {d : Path} {l : Location} {n : Text} {force : Bool}

theorem guardTarget_eq (p : Path) (force : Bool) (s : Session) :
    (guardTarget p force : Attempt (SessionOn device) Unit) s
      = (if s.files.exists? p && !force then .error { cause := .occupied p } else .ok (), s) := by
  unfold guardTarget
  rw [bind_of_eq (isPresent_eq p s)]
  split_ifs <;> rfl

/-- A file that may be written is written. -/
theorem writeOutput_of_holds (h : s.files.Holds d l) (hn : n.IsFileName)
    (hfree : s.files.get? (l ++ [n]) ≠ some .directory)
    (hforce : s.files.get? (l ++ [n]) = none ∨ force = true) (contents : Text) :
    ∃ s', (writeOutput d force n contents : Attempt (SessionOn .sound) Path) s
        = (.ok (d.join n), s') ∧
      s'.files = s.files.put (l ++ [n]) (.file contents.encode) := by
  have hguard : (guardTarget (d.join n) force : Attempt (SessionOn .sound) Unit) s
      = (.ok (), s) := by
    have hoccupied : (s.files.exists? (d.join n) && !force) = false := by
      rw [h.exists?_join hn]
      rcases hforce with hnone | hforce
      · rw [hnone]
        rfl
      · rw [hforce]
        exact Bool.and_false _
    rw [guardTarget_eq, hoccupied]
    rfl
  have hdevice : Device.sound.write s (d.join n) contents.encode
      = (.ok (), s.files.put (l ++ [n]) (.file contents.encode)) := h.write_join hn hfree
  have hwrite := @write_eq .sound (d.join n) contents.encode s
  rw [hdevice] at hwrite
  unfold writeOutput
  rw [bind_of_eq hguard, bind_of_eq hwrite]
  exact ⟨_, rfl, rfl⟩

/-- Nothing is written, or a beginning of the file is, or all of it. -/
theorem device_write_cases (device : Device) (s : Session) (p : Path) (contents : Bytes) :
    (∃ e, device.write s p contents = (.error e, s.files)) ∨
    (∃ l n e, s.files.fileTarget p = .ok l ∧
      device s (.write p contents) = some (.brokenOff n e) ∧ n < contents.length ∧
      device.write s p contents = (.error e, s.files.put l (.file (contents.take n)))) ∨
    ∃ l, s.files.fileTarget p = .ok l ∧
      device.write s p contents = (.ok (), s.files.put l (.file contents)) := by
  unfold Device.write
  rcases htarget : s.files.fileTarget p with e | l
  · -- the file cannot be opened, on whatever device
    have hwrite : ∀ sink, s.files.write p contents sink = (.error e, s.files) := fun sink => by
      rw [FileTree.write, htarget]
    rcases device s (.write p contents) with _ | e' | ⟨n, e'⟩
    · exact Or.inl ⟨e, hwrite none⟩
    · exact Or.inl ⟨e', rfl⟩
    · exact Or.inl ⟨e, hwrite (some (.ofRoom n e'))⟩
  · rcases device s (.write p contents) with _ | e | ⟨n, e⟩
    · exact Or.inr (Or.inr ⟨l, rfl, FileTree.write_of_fileTarget htarget⟩)
    · exact Or.inl ⟨e, rfl⟩
    · have hwrite : s.files.write p contents (some (.ofRoom n e)) = _ :=
        FileTree.write_ofRoom htarget n e
      by_cases hroom : contents.length ≤ n
      · rw [if_pos hroom, List.take_of_length_le hroom] at hwrite
        exact Or.inr (Or.inr ⟨l, rfl, hwrite⟩)
      · rw [if_neg hroom] at hwrite
        exact Or.inr (Or.inl ⟨l, n, e, rfl, rfl, Nat.lt_of_not_le hroom, hwrite⟩)

/-- The device gave out while the file was written: the file is there and keeps a beginning of its
contents. -/
def Device.BreaksOff (device : Device) (s : Session) (p : Path) (contents : Bytes)
    (failure : Failure) (t : FileTree) : Prop :=
  ∃ l n e, s.files.fileTarget p = .ok l ∧ device s (.write p contents) = some (.brokenOff n e) ∧
    n < contents.length ∧ failure = { activity := some (.writing p), cause := .io e } ∧
    t = s.files.put l (.file (contents.take n))

/-- What comes of writing a file: nothing is done, or the device gives out, or the file is written. -/
inductive Device.Writes (device : Device) (s : Session) (p : Path) (contents : Bytes) :
    Except Failure Path × Session → Prop
  | refused (e : IoError) :
      device.Writes s p contents (.error { activity := some (.writing p), cause := .io e }, s)
  | brokenOff {failure : Failure} {s' : Session}
      (h : device.BreaksOff s p contents failure s'.files) :
      device.Writes s p contents (.error failure, s')
  | done {l : Location} {s' : Session} (htarget : s.files.fileTarget p = .ok l)
      (hfiles : s'.files = s.files.put l (.file contents)) : device.Writes s p contents (.ok p, s')

theorem writes_write (p : Path) (contents : Bytes) (event : Event) (s : Session) :
    device.Writes s p contents ((do
      duringIo (.writing p) (← Host.write p contents)
      Host.report event
      return p : Attempt (SessionOn device) Path) s) := by
  rw [bind_of_eq (write_eq p contents s)]
  rcases device_write_cases device s p contents with
    ⟨e, hwrite⟩ | ⟨l, n, e, htarget, hdevice, hn, hwrite⟩ | ⟨l, htarget, hwrite⟩ <;> rw [hwrite]
  · exact .refused e
  · exact .brokenOff ⟨l, n, e, htarget, hdevice, hn, rfl, rfl⟩
  · exact .done htarget rfl

/-- A file is refused because it is there, or it is written. -/
theorem writeOutput_cases (d : Path) (force : Bool) (n contents : Text) (s : Session) :
    (writeOutput d force n contents : Attempt (SessionOn device) Path) s
        = (.error { cause := .occupied (d.join n) }, s) ∨
    (force = false → s.files.exists? (d.join n) = false) ∧
      device.Writes s (d.join n) contents.encode
        ((writeOutput d force n contents : Attempt (SessionOn device) Path) s) := by
  have hguard := @guardTarget_eq device (d.join n) force s
  by_cases hoccupied : (s.files.exists? (d.join n) && !force) = true
  · rw [if_pos hoccupied] at hguard
    exact Or.inl (bind_of_error hguard)
  · rw [if_neg hoccupied] at hguard
    refine Or.inr ⟨fun hforce => by simpa [hforce] using hoccupied, ?_⟩
    unfold writeOutput
    rw [bind_of_eq hguard]
    exact writes_write ..

/-- A file that was written is in the directory. -/
theorem exists_of_writeOutput (hn : n.IsFileName) {contents : Text} {p : Path}
    (h : (writeOutput d force n contents : Attempt (SessionOn device) Path) s = (.ok p, s')) :
    ∃ l, s.files.Holds d l ∧ s.files.get? (l ++ [n]) ≠ some .directory ∧
      s'.files = s.files.put (l ++ [n]) (.file contents.encode) := by
  rcases writeOutput_cases d force n contents s with hoccupied | ⟨-, hwrites⟩
  · cases (Prod.mk.inj (h.symm.trans hoccupied)).1
  · rw [h] at hwrites
    cases hwrites with
    | done htarget hfiles =>
      obtain ⟨k, hk, rfl, hfree⟩ := FileTree.exists_holds_of_fileTarget hn htarget
      exact ⟨k, hk, hfree, hfiles⟩

end Writing

section Reading

theorem readSource_fst {s : Session} {p : Path} {language : Language} {source : Bytes}
    (hl : Language.ofPath? p = some language) (hr : s.files.read p = .ok source) :
    ((readSource p : SessionOn .sound (Except Error (Option SourceFile))) s).1
      = (SourceFile.reading language (.ofBytes source)).answer := by
  have hbind : ∀ {α β : Type} (x : SessionOn .sound α) (f : α → SessionOn .sound β),
      (x >>= f) s = f (x s).1 (x s).2 := fun _ _ => rfl
  have hread : ((Host.read p : SessionOn .sound _) s).1 = .ok source := hr
  unfold readSource
  simp only [hl]
  rw [hbind, hread]
  rfl

theorem exists_forM_report (notes : List Header.Note) : ∀ s : Session, ∃ s' : Session,
    (notes.forM fun note => Host.report (.reading note) : Attempt (SessionOn device) PUnit) s
      = (.ok (), s') ∧ s'.files = s.files := by
  induction notes with
  | nil => exact fun s => ⟨s, rfl, rfl⟩
  | cons n notes ih =>
    intro s
    obtain ⟨s', hs', hfiles⟩ := ih { s with events := s.events ++ [.reading n] }
    refine ⟨s', ?_, hfiles⟩
    have hreport : (Host.report (.reading n) : Attempt (SessionOn device) Unit) s
      = (.ok (), { s with events := s.events ++ [.reading n] }) := rfl
    show ((Host.report (.reading n) : Attempt (SessionOn device) PUnit) >>= fun _ => _) s = _
    rw [bind_of_eq hreport]
    exact hs'

theorem exists_readSource {s : Session} {p : Path} {language : Language} {source : Bytes}
    (hl : Language.ofPath? p = some language) (hr : device.read s p = .ok source) :
    ∃ s', (readSource p : Attempt (SessionOn device) (Except Error (Option SourceFile))) s
      = (.ok (SourceFile.reading language (.ofBytes source)).answer, s') ∧ s'.files = s.files := by
  have hread : (Host.read p : Attempt (SessionOn device) (Except IoError Bytes)) s
      = (.ok (.ok source), s) := by
    show (Except.ok (device.read s p), s) = _
    rw [hr]
  obtain ⟨s', hs', hfiles⟩ :=
    exists_forM_report (SourceFile.reading language (.ofBytes source)).notes s
  refine ⟨s', ?_, hfiles⟩
  unfold readSource
  simp only [hl]
  rw [bind_of_eq hread]
  show ((_ : Attempt (SessionOn device) PUnit) >>= fun _ => _) s = _
  rw [bind_of_eq hs']
  rfl

theorem exists_requireSource {s : Session} {p : Path} {language : Language} {source : Bytes}
    {f : SourceFile} (hl : Language.ofPath? p = some language) (hr : s.files.read p = .ok source)
    (hf : (SourceFile.reading language (.ofBytes source)).answer = .ok (some f)) :
    ∃ s', (requireSource p : Attempt (SessionOn .sound) SourceFile) s = (.ok f, s') ∧
      s'.files = s.files := by
  obtain ⟨s', hs', hfiles⟩ := @exists_readSource .sound _ _ _ _ hl hr
  refine ⟨s', ?_, hfiles⟩
  unfold requireSource
  rw [bind_of_eq hs', hf]
  rfl

theorem keepsFiles_readSource (p : Path) :
    KeepsFiles (readSource p : Attempt (SessionOn device) (Except Error (Option SourceFile))) := by
  unfold readSource
  split
  · exact keepsFiles_pure _
  · refine (keepsFiles_read p).bind fun contents => ?_
    split
    · exact keepsFiles_pure _
    · refine KeepsFiles.bind (fun s => ?_) fun _ => keepsFiles_pure _
      obtain ⟨s', hs', hfiles⟩ := exists_forM_report (SourceFile.reading _ (.ofBytes _)).notes s
      rw [hs']
      exact hfiles

theorem keepsFiles_requireSource (p : Path) :
    KeepsFiles (requireSource p : Attempt (SessionOn device) SourceFile) := by
  refine (keepsFiles_readSource p).bind fun answer => (keepsFiles_during _ _).bind fun found => ?_
  split
  · exact keepsFiles_pure _
  · exact keepsFiles_throw _

/-- A device reads what is in the file, if it reads anything. -/
theorem read_of_device {s : Session} {p : Path} {source : Bytes}
    (h : device.read s p = .ok source) : s.files.read p = .ok source := by
  unfold Device.read at h
  split at h
  · cases h
  · exact h

theorem source_of_readSource {s s' : Session} {p : Path} {f : SourceFile}
    (h : (readSource p : Attempt (SessionOn device) (Except Error (Option SourceFile))) s
      = (.ok (.ok (some f)), s')) :
    ∃ language source, Language.ofPath? p = some language ∧ s.files.read p = .ok source ∧
      (SourceFile.reading language (.ofBytes source)).answer = .ok (some f) := by
  rcases hl : Language.ofPath? p with _ | language
  · unfold readSource at h
    simp only [hl] at h
    have hanswer := Except.ok.inj (Prod.mk.inj h).1
    simp at hanswer
  · rcases hr : device.read s p with e | source
    · have hread : (Host.read p : Attempt (SessionOn device) (Except IoError Bytes)) s
          = (.ok (.error e), s) := by
        show (Except.ok (device.read s p), s) = _
        rw [hr]
      unfold readSource at h
      simp only [hl] at h
      rw [bind_of_eq hread] at h
      have hanswer := Except.ok.inj (Prod.mk.inj h).1
      simp at hanswer
    · obtain ⟨_, hs, -⟩ := exists_readSource hl hr
      rw [hs] at h
      exact ⟨language, source, rfl, read_of_device hr, Except.ok.inj (Prod.mk.inj h).1⟩

/-- A source that was read comes from the file. -/
theorem source_of_requireSource {s s' : Session} {p : Path} {f : SourceFile}
    (h : (requireSource p : Attempt (SessionOn device) SourceFile) s = (.ok f, s')) :
    ∃ language source, Language.ofPath? p = some language ∧ s.files.read p = .ok source ∧
      (SourceFile.reading language (.ofBytes source)).answer = .ok (some f) := by
  unfold requireSource at h
  obtain ⟨answer, s₁, hread, h⟩ := exists_of_bind h
  obtain ⟨found, s₂, hduring, h⟩ := exists_of_bind h
  obtain rfl := mapError_eq_ok_iff.1 (eq_of_during hduring).1
  rcases found with _ | g
  · have hthrow := (Prod.mk.inj h).1
    simp at hthrow
  · obtain rfl : g = f := Except.ok.inj (Prod.mk.inj h).1
    exact source_of_readSource hread

theorem SourceFile.module_of_reading {language : Language} {source : Bytes} {f : SourceFile}
    (h : (SourceFile.reading language (.ofBytes source)).answer = .ok (some f)) :
    f.language = language ∧ Module.ofSource? source = .ok (some f.module) := by
  unfold SourceFile.reading at h
  unfold Module.ofSource?
  rcases hm : (Header.firstModule? (.ofBytes source)).answer with e | _ | m
  · simp [bind, Header.Reading.andThen, hm] at h
  · simp [bind, Header.Reading.andThen, hm, pure, Header.Reading.ofExcept] at h
  · simp only [bind, Header.Reading.andThen, hm] at h
    split at h
    · simp at h
    · obtain rfl := Option.some.inj (Except.ok.inj h)
      exact ⟨rfl, rfl⟩

end Reading

end HdlScaffold
