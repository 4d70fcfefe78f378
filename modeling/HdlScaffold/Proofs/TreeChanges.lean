import HdlScaffold.Proofs.Emission
import HdlScaffold.Proofs.Files
import Mathlib.Data.List.Infix
import Mathlib.Data.List.Induction

/-!
# What changes in a tree

A file is written at one place, to which its path leads afterwards (`FileTree.Names`), and making
directories leaves every place that holds something as it was (`FileTree.Grows`). Both spare what they
are not about, and so does one such change after another (`FileTree.Spares`).

Directories are made after it was looked whether a file is there. In between, a path that leads upwards
again can begin to lead to a file that was there all along; a path that steps up only out of directories
that are there already cannot (`FileTree.Grows.contents?_eq_none`).
-/

namespace HdlScaffold

/-- What stands behind the last slash of a path is its last component. -/
theorem Path.exists_eq_append (p : Path) : ∃ (d : Path) (u : Text), '/' ∉ u ∧ p = d ++ u ∧
    (d = [] ∨ d.getLast? = some '/') ∧ p.segments = d.parents ++ [u] := by
  by_cases h : '/' ∈ p
  · obtain ⟨a, b, hp, ha⟩ := List.eq_append_cons_of_mem (List.mem_reverse.2 h)
    obtain rfl : p = b.reverse ++ '/' :: a.reverse := by
      rw [← List.reverse_reverse p, hp]
      simp
    have hslash : '/' ∉ a.reverse := by simpa using ha
    refine ⟨b.reverse ++ ['/'], a.reverse, hslash, by simp, Or.inr (by simp), ?_⟩
    rw [segments_append_slash _ hslash, parents, if_pos (by simp),
      segments_append_slash _ List.not_mem_nil, List.dropLast_concat]
  · exact ⟨[], p, h, rfl, Or.inl rfl, List.splitOn_eq_singleton h⟩

theorem Path.join_eq_append {d : Path} {n : Text} (hn : n.IsFileName)
    (hd : d = [] ∨ d.getLast? = some '/') : d.join n = d ++ n := by
  rw [join, isAbsolute_fileName hn, if_neg Bool.false_ne_true, if_pos (by simpa using hd)]

namespace FileTree

variable {t t' t'' : FileTree} {d p : Path} {k l : Location} {n u : Text} {c : Bytes}

/-- The contents of the file at a place. -/
def contents? (t : FileTree) (l : Location) : Option Bytes :=
  match t.get? l with
  | some (.file c) => some c
  | _ => none

theorem contents?_eq_some_iff : t.contents? l = some c ↔ t.get? l = some (.file c) := by
  unfold contents?
  rcases t.get? l with _ | ⟨b | _⟩ <;> simp

theorem contents?_put (hl : l ≠ []) (k : Location) :
    (t.put l (.file c)).contents? k = if k = l then some c else t.contents? k := by
  rw [contents?, get?_put t k _ hl]
  split_ifs <;> rfl

section Writing

/-- The path leads to the place of a file in a directory that is there. -/
def Names (t : FileTree) (p : Path) (l : Location) : Prop :=
  ∃ (d : Path) (k : Location) (n : Text), n.IsFileName ∧ p = d.join n ∧ l = k ++ [n] ∧ t.Holds d k

theorem Holds.names (h : t.Holds d k) (hn : n.IsFileName) : t.Names (d.join n) (k ++ [n]) :=
  ⟨d, k, n, hn, rfl, rfl, h⟩

theorem Names.ne_nil (h : t.Names p l) : l ≠ [] := by
  obtain ⟨_, _, _, -, -, rfl, -⟩ := h
  simp

theorem Names.exists?_eq (h : t.Names p l) : t.exists? p = (t.get? l).isSome := by
  obtain ⟨d, k, n, hn, rfl, rfl, hk⟩ := h
  exact hk.exists?_join hn

theorem Names.resolve_put (h : t.Names p l) (hfree : t.get? l ≠ some .directory) :
    (t.put l (.file c)).resolve p = .ok (l, .file c) := by
  have hne := h.ne_nil
  obtain ⟨d, k, n, hn, rfl, rfl, hk⟩ := h
  rw [(hk.put hne hfree).resolve_join hn, get?_put _ _ _ hne, if_pos rfl]
  rfl

theorem fileTarget_ne_ok_of_slash (h : p = [] ∨ p.getLast? = some '/') :
    t.fileTarget p ≠ .ok l := by
  rcases h with rfl | h
  · simp [fileTarget, target, bind, Except.bind]
  · unfold fileTarget
    split
    · simp
    · simp
    · rw [if_pos (Or.inl h)]
      simp

theorem fileTarget_ne_ok_of_dots {ns : List Text} (hu : u = ['.'] ∨ u = ['.', '.'])
    (h : p.segments = ns ++ [u]) : t.fileTarget p ≠ .ok l := by
  have hrev : p.segments.reverse.dropWhile (·.isEmpty) = u :: ns.reverse := by
    rw [h, List.reverse_concat]
    rcases hu with rfl | rfl <;> rfl
  have htarget : ∀ l, t.target p ≠ .ok (some l) := by
    intro l
    unfold target
    rw [hrev]
    rcases hp : p.isEmpty with _ | _
    · rcases hwalk : t.walk (t.start p) ns with e | k
      · simp [bind, Except.bind, hwalk]
      · rcases henter : t.enter k with e | _ <;>
          simp [bind, Except.bind, hwalk, henter, hu, pure, Except.pure]
    · simp [bind, Except.bind]
  unfold fileTarget
  split
  · simp
  · simp
  · rename_i hsome
    exact absurd hsome (htarget _)

/-- A file can be written where its path leads to, in place of a file or of nothing. -/
theorem names_of_fileTarget (h : t.fileTarget p = .ok l) :
    t.Names p l ∧ t.get? l ≠ some .directory := by
  obtain ⟨d, u, hslash, rfl, hd, hsegments⟩ := p.exists_eq_append
  -- a last component that is no name of a file is refused
  have hu : u.IsFileName := by
    refine ⟨?_, hslash, ?_, ?_⟩
    · rintro rfl
      rw [List.append_nil] at h
      exact fileTarget_ne_ok_of_slash hd h
    · exact fun hdot => fileTarget_ne_ok_of_dots (Or.inl hdot) hsegments h
    · exact fun hdots => fileTarget_ne_ok_of_dots (Or.inr hdots) hsegments h
  rw [← Path.join_eq_append hu hd] at h ⊢
  obtain ⟨k, hk, rfl, hfree⟩ := exists_holds_of_fileTarget hu h
  exact ⟨hk.names hu, hfree⟩

/-- On a device with little room the file keeps as much as there is room for. -/
theorem write_ofRoom (h : t.fileTarget p = .ok l) (room : Nat) (e : IoError) :
    t.write p c (some (.ofRoom room e))
      = (if c.length ≤ room then .ok () else .error e, t.put l (.file (c.take room))) := by
  have hroom : (Sink.ofRoom room e).room = room := rfl
  rw [write, h]
  simp only [Sink.writeAll_eq (show 1 ≤ (Sink.ofRoom room e).portion from Nat.le_add_left _ _),
    hroom]
  rfl

end Writing

section Growing

/-- Nothing is new in the second tree but directories, and nothing is gone. -/
structure Grows (t t' : FileTree) : Prop where
  workingDirectory : t'.workingDirectory = t.workingDirectory
  get? : ∀ l, t'.get? l = t.get? l ∨ t.get? l = none ∧ t'.get? l = some .directory

theorem Grows.refl (t : FileTree) : t.Grows t := ⟨rfl, fun _ => Or.inl rfl⟩

theorem Grows.trans (h : t.Grows t') (h' : t'.Grows t'') : t.Grows t'' := by
  refine ⟨h'.workingDirectory.trans h.workingDirectory, fun l => ?_⟩
  rcases h.get? l with heq | ⟨hnone, hdir⟩ <;> rcases h'.get? l with heq' | ⟨hnone', hdir'⟩
  · exact Or.inl (heq'.trans heq)
  · exact Or.inr ⟨heq ▸ hnone', hdir'⟩
  · exact Or.inr ⟨hnone, heq'.trans hdir⟩
  · simp [hdir] at hnone'

theorem grows_makeDirectory (t : FileTree) (p : Path) : t.Grows (t.makeDirectory p).2 := by
  unfold makeDirectory
  split
  · exact .refl t
  · exact .refl t
  · rename_i l _
    split_ifs with hsome
    · exact .refl t
    · have hnone : t.get? l = none := by simpa using hsome
      have hne : l ≠ [] := by
        rintro rfl
        simp [FileTree.get?] at hnone
      refine ⟨rfl, fun a => ?_⟩
      by_cases ha : a = l
      · exact Or.inr ⟨ha ▸ hnone, by rw [get?_put _ _ _ hne, if_pos ha]⟩
      · exact Or.inl (by rw [get?_put _ _ _ hne, if_neg ha])

theorem grows_makeChain : ∀ (ps : List Path) (t : FileTree), t.Grows (t.makeChain ps).2
  | [], t => .refl t
  | p :: above, t => by
    have hfirst := grows_makeDirectory t p
    unfold makeChain
    split
    · rename_i t₁ h
      rwa [h] at hfirst
    · rename_i t₁ h
      rw [h] at hfirst
      have habove := hfirst.trans (grows_makeChain above t₁)
      split
      · rename_i t₂ h₂
        rwa [h₂] at habove
      · rename_i t₂ h₂
        rw [h₂] at habove
        have hagain := habove.trans (grows_makeDirectory t₂ p)
        split
        · rename_i t₃ h₃
          rwa [h₃] at hagain
        · rename_i t₃ h₃
          rwa [h₃] at hagain
    · rename_i t₁ _ h
      rwa [h] at hfirst

theorem Grows.directory (h : t.Grows t') (hl : t.get? l = some .directory) :
    t'.get? l = some .directory := by
  rcases h.get? l with heq | ⟨-, hdir⟩
  · exact heq.trans hl
  · exact hdir

theorem Grows.contents?_eq (h : t.Grows t') (l : Location) : t'.contents? l = t.contents? l := by
  unfold contents?
  rcases h.get? l with heq | ⟨hnone, hdir⟩
  · rw [heq]
  · rw [hnone, hdir]

theorem Grows.holds (h : t.Grows t') (hk : t.Holds d k) : t'.Holds d k := by
  refine ⟨?_, h.directory hk.directory⟩
  rw [start, h.workingDirectory]
  exact walk_of_directories (fun _ => h.directory) _ hk.walk_eq

end Growing

section Rooted

/-- Whatever is in the tree lies in a directory of the tree. -/
def Rooted (t : FileTree) : Prop := ∀ x ∈ t.entries, t.get? x.1.dropLast = some .directory

instance (t : FileTree) : Decidable t.Rooted :=
  inferInstanceAs (Decidable (∀ x ∈ t.entries, _))

theorem Rooted.directory_of_concat (h : t.Rooted) {e : Entry} (hget : t.get? (l ++ [n]) = some e) :
    t.get? l = some .directory := by
  rw [FileTree.get?, if_neg (by simp)] at hget
  obtain ⟨before, after, hentries, -⟩ := List.lookup_eq_some_iff.1 hget
  have hparent := h (l ++ [n], e) (by rw [hentries]; simp)
  rwa [List.dropLast_concat] at hparent

theorem Rooted.directory_of_append (h : t.Rooted) {q r : Location} {e : Entry}
    (hget : t.get? (q ++ r) = some e) (hr : r ≠ []) : t.get? q = some .directory := by
  induction r using List.reverseRecOn generalizing e with
  | nil => exact absurd rfl hr
  | append_singleton r x ih =>
    rw [← List.append_assoc] at hget
    have hdir := h.directory_of_concat hget
    by_cases hnil : r = []
    · rwa [hnil, List.append_nil] at hdir
    · exact ih hdir hnil

/-- A way that does not lead upwards ends below all that it passes. -/
theorem isPrefix_of_walk : ∀ (xs : List Text) {a b : Location}, ['.', '.'] ∉ xs →
    t.walk a xs = .ok b → a <+: b
  | [], a, b, _, h => by
    obtain rfl : a = b := Except.ok.inj h
    exact List.prefix_refl a
  | x :: xs, a, b, hdots, h => by
    obtain ⟨hx, hxs⟩ : ['.', '.'] ≠ x ∧ ['.', '.'] ∉ xs := by simpa using hdots
    rw [walk] at h
    rcases he : t.enter a with e | u <;> rw [he] at h
    · simp [bind, Except.bind] at h
    · simp only [bind, Except.bind, if_neg hx.symm] at h
      split_ifs at h
      · exact isPrefix_of_walk xs hxs h
      · exact (List.prefix_append a [x]).trans (isPrefix_of_walk xs hxs h)

theorem walk_of_isPrefix : ∀ (xs : List Text) {a b : Location}, ['.', '.'] ∉ xs →
    t'.walk a xs = .ok b → (∀ q, q <+: b → t.get? q = some .directory) → t.walk a xs = .ok b
  | [], _, _, _, h, _ => h
  | x :: xs, a, b, hdots, h, hb => by
    have henter : t.enter a = .ok () := enter_of_directory (hb a (isPrefix_of_walk _ hdots h))
    obtain ⟨hx, hxs⟩ : ['.', '.'] ≠ x ∧ ['.', '.'] ∉ xs := by simpa using hdots
    rw [walk] at h ⊢
    rcases he : t'.enter a with e | u <;> rw [he] at h
    · simp [bind, Except.bind] at h
    · simp only [bind, Except.bind, henter, if_neg hx.symm] at h ⊢
      split_ifs at h ⊢ <;> exact walk_of_isPrefix xs hxs h hb

/-- The directory is there, or its path steps up only out of directories that are there. -/
def StepsUpSafely (t : FileTree) (d : Path) : Prop :=
  t.isDirectory d = true ∨ t.Rooted ∧ ∃ before after k, d.parents = before ++ after ∧
    t.walk (t.start d) before = .ok k ∧ ['.', '.'] ∉ after

/-- Where a path led to nothing before directories were made, it leads to no file that was there. -/
theorem Grows.contents?_eq_none (h : t.Grows t') (hk : t'.Holds d k) (hn : n.IsFileName)
    (hsafe : t.StepsUpSafely d) (hfree : t.exists? (d.join n) = false) :
    t'.contents? (k ++ [n]) = none := by
  rw [h.contents?_eq]
  by_contra hsome
  obtain ⟨c, hc⟩ := Option.ne_none_iff_exists'.1 hsome
  have hget := contents?_eq_some_iff.1 hc
  -- the directory held its files at the same place before
  have hbefore : t.Holds d k := by
    rcases hsafe with hdir | ⟨hroot, before, after, j, hparents, hj, hdots⟩
    · obtain ⟨k', hk'⟩ := exists_holds_of_isDirectory hdir
      obtain rfl : k = k' := Except.ok.inj (hk.walk_eq.symm.trans (h.holds hk').walk_eq)
      exact hk'
    · have hprefix : ∀ q, q <+: k → t.get? q = some .directory := by
        rintro q ⟨r, rfl⟩
        rw [List.append_assoc] at hget
        exact hroot.directory_of_append hget (by simp)
      have hj' : t'.walk (t'.start d) before = .ok j := by
        rw [start, h.workingDirectory]
        exact walk_of_directories (fun _ => h.directory) _ hj
      have hafter : t'.walk j after = .ok k := by
        rw [← walk_append before after hj', ← hparents]
        exact hk.walk_eq
      refine ⟨?_, hprefix k (List.prefix_refl k)⟩
      rw [hparents, walk_append before after hj]
      exact walk_of_isPrefix after hdots hafter hprefix
  rw [hbefore.exists?_join hn, hget] at hfree
  simp at hfree

end Rooted

section Sparing

/-- No directory and no file gets lost from one tree to the other, and files are changed or added only
where a path of the given kind leads to. With `careful` no file is changed that was there. -/
structure Spares (careful : Prop) (P : Path → Prop) (t t' : FileTree) : Prop where
  workingDirectory : t'.workingDirectory = t.workingDirectory
  directory : ∀ l, t.get? l = some .directory → t'.get? l = some .directory
  file : ∀ l c, t.contents? l = some c → ∃ c', t'.contents? l = some c' ∧ (careful → c' = c)
  changed : ∀ l, t'.contents? l ≠ t.contents? l →
    ∃ p, P p ∧ ∃ c, t'.resolve p = .ok (l, .file c)

variable {careful : Prop} {P : Path → Prop}

theorem Grows.spares (h : t.Grows t') : t.Spares careful P t' where
  workingDirectory := h.workingDirectory
  directory _ := h.directory
  file l c hc := ⟨c, (h.contents?_eq l).trans hc, fun _ => rfl⟩
  changed l hl := absurd (h.contents?_eq l) hl

theorem Spares.refl (t : FileTree) : t.Spares careful P t := (Grows.refl t).spares

theorem Names.spares (h : t.Names p l) (hfree : t.get? l ≠ some .directory) (hp : P p)
    (hcareful : careful → t.contents? l = none) : t.Spares careful P (t.put l (.file c)) where
  workingDirectory := rfl
  directory _ := get?_put_of_directory h.ne_nil hfree
  file a b hb := by
    rw [contents?_put h.ne_nil]
    split_ifs with ha
    · refine ⟨c, rfl, fun hc => ?_⟩
      have hnone := hcareful hc
      rw [← ha, hb] at hnone
      simp at hnone
    · exact ⟨b, hb, fun _ => rfl⟩
  changed a ha := by
    rw [contents?_put h.ne_nil] at ha
    split_ifs at ha with hal
    · exact ⟨p, hp, c, hal ▸ h.resolve_put hfree⟩
    · exact absurd rfl ha

theorem Spares.exists_resolve (h : t.Spares careful P t') (hp : t.resolve p = .ok (l, .file c)) :
    ∃ c', t'.resolve p = .ok (l, .file c') := by
  obtain ⟨hnil, hwalk, hget⟩ := walk_of_resolve hp
  obtain ⟨c', hc', -⟩ := h.file l c (contents?_eq_some_iff.2 hget)
  have hwalk' : t'.walk (t'.start p) p.segments = .ok l := by
    rw [start, h.workingDirectory]
    exact walk_of_directories h.directory _ hwalk
  refine ⟨c', ?_⟩
  unfold resolve
  rw [hnil, if_neg Bool.false_ne_true, hwalk']
  simp only [bind, Except.bind, contents?_eq_some_iff.1 hc']
  rfl

/-- One change after another spares what both spare. -/
theorem Spares.trans (h : t.Spares careful P t') (h' : t'.Spares careful P t'') :
    t.Spares careful P t'' where
  workingDirectory := h'.workingDirectory.trans h.workingDirectory
  directory l hl := h'.directory l (h.directory l hl)
  file l c hc := by
    obtain ⟨c', hc', hsame⟩ := h.file l c hc
    obtain ⟨c'', hc'', hsame'⟩ := h'.file l c' hc'
    exact ⟨c'', hc'', fun hcareful => (hsame' hcareful).trans (hsame hcareful)⟩
  changed l hl := by
    by_cases heq : t''.contents? l = t'.contents? l
    · rw [heq] at hl
      obtain ⟨p, hp, c, hres⟩ := h.changed l hl
      exact ⟨p, hp, h'.exists_resolve hres⟩
    · exact h'.changed l heq

end Sparing

end FileTree

end HdlScaffold
