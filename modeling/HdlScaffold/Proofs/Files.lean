import HdlScaffold.FileTree
import HdlScaffold.Language
import Mathlib.Data.List.Basic
import Mathlib.Tactic.SplitIfs

/-!
# Files of a directory

A path made of a directory and the name of a file leads to one place, which depends on the directory
only up to that name (`FileTree.Holds`). What is written there is read back, and the directory still
holds its files afterwards (`Holds.write_join`, `Holds.read_join`, `Holds.put`).
-/

namespace HdlScaffold

section Paths

/-- A name that a file can have. -/
structure Text.IsFileName (n : Text) : Prop where
  ne_nil : n ≠ []
  no_slash : '/' ∉ n
  ne_dot : n ≠ ['.']
  ne_dots : n ≠ ['.', '.']

namespace Path

/-- The components that lead to the place of a directory's files. -/
def parents (d : Path) : List Text :=
  if d.isEmpty || d.getLast? == some '/' then d.segments.dropLast else d.segments

variable {d : Path} {n : Text}

theorem isAbsolute_fileName (hn : n.IsFileName) : isAbsolute n = false := by
  rw [isAbsolute, beq_eq_false_iff_ne]
  exact fun h => hn.no_slash (List.mem_of_mem_head? h)

theorem segments_append_slash (e : Path) {u : Text} (hu : '/' ∉ u) :
    segments (e ++ '/' :: u) = e.segments ++ [u] := by
  have hslash : ('/' == '/') = true := by decide
  have hsplit : List.splitOnP (· == '/') (e ++ '/' :: u) = _ := List.splitOnP_append_cons e u hslash
  rw [segments, segments, List.splitOn, hsplit]
  exact congrArg _ (List.splitOn_eq_singleton hu)

/-- The name of the file is the last component. -/
theorem segments_join (hn : n.IsFileName) : (d.join n).segments = d.parents ++ [n] := by
  unfold join parents
  rw [isAbsolute_fileName hn]
  simp only [Bool.false_eq_true, if_false, Bool.or_eq_true, List.isEmpty_iff, beq_iff_eq]
  by_cases hnil : d = []
  · subst hnil
    rw [if_pos (Or.inl rfl), if_pos (Or.inl rfl), List.nil_append]
    exact List.splitOn_eq_singleton hn.no_slash
  · by_cases hslash : d.getLast? = some '/'
    · rw [if_pos (Or.inr hslash), if_pos (Or.inr hslash)]
      obtain ⟨e, rfl⟩ := List.getLast?_eq_some_iff.1 hslash
      rw [segments_append_slash e List.not_mem_nil, List.dropLast_concat, List.append_assoc,
        List.singleton_append, segments_append_slash e hn.no_slash]
    · rw [if_neg (by simp [hnil, hslash]), if_neg (by simp [hnil, hslash]),
        segments_append_slash d hn.no_slash]

theorem exists_join_eq (d : Path) (hn : n.IsFileName) : ∃ e : Path, d.join n = e ++ n := by
  unfold join
  rw [isAbsolute_fileName hn, if_neg Bool.false_ne_true]
  split_ifs
  · exact ⟨d, rfl⟩
  · exact ⟨d ++ ['/'], by rw [List.append_assoc, List.singleton_append]⟩

theorem isAbsolute_join (hn : n.IsFileName) : (d.join n).isAbsolute = d.isAbsolute := by
  have habs := isAbsolute_fileName hn
  unfold join
  rw [habs, if_neg Bool.false_ne_true]
  rcases d with _ | ⟨c, e⟩
  · exact habs
  · split_ifs <;> rfl

theorem getLast?_join (hn : n.IsFileName) : (d.join n).getLast? ≠ some '/' := by
  obtain ⟨e, he⟩ := d.exists_join_eq hn
  rw [he, List.getLast?_append_of_ne_nil _ hn.ne_nil]
  exact fun h => hn.no_slash (List.mem_of_getLast? h)

theorem isEmpty_join (hn : n.IsFileName) : (d.join n).isEmpty = false := by
  obtain ⟨e, he⟩ := d.exists_join_eq hn
  rw [he]
  simp [hn.ne_nil]

/-- The extension of a file is that of its name. -/
theorem extension?_join {stem extension : Text} (hstem : stem ≠ []) (he : '.' ∉ extension)
    (hn : (stem ++ ['.'] ++ extension).IsFileName) :
    (d.join (stem ++ ['.'] ++ extension)).extension? = some extension := by
  have hname : fileName? (d.join (stem ++ ['.'] ++ extension)) = some (stem ++ ['.'] ++ extension) := by
    unfold fileName? names
    rw [segments_join hn, List.filter_append, List.filter_singleton]
    have hkeep : (!(stem ++ ['.'] ++ extension).isEmpty && (stem ++ ['.'] ++ extension) != ['.'])
        = true := by
      simpa using hn.ne_dot
    rw [hkeep, cond_true, List.getLast?_concat]
    exact if_pos (by simpa using hn.ne_dots)
  have hcut : Text.cutAtLast? '.' (stem ++ ['.'] ++ extension) = some (stem, extension) := by
    rw [List.append_assoc]
    exact Text.cutAtLast?_append stem he
  unfold extension?
  simp only [hname, Option.bind_eq_bind, Option.bind_some, hcut]
  rw [if_neg (by simpa using hstem)]

end Path

end Paths

namespace FileTree

variable {t : FileTree} {d : Path} {l : Location} {n : Text} {c : Bytes}

/-- The files of the directory are right below the place. -/
structure Holds (t : FileTree) (d : Path) (l : Location) : Prop where
  walk_eq : t.walk (t.start d) d.parents = .ok l
  directory : t.get? l = some .directory

theorem start_join (hn : n.IsFileName) : t.start (d.join n) = t.start d := by
  rw [start, start, Path.isAbsolute_join hn]

theorem enter_of_directory (h : t.get? l = some .directory) : t.enter l = .ok () := by
  rw [enter, h]

theorem directory_of_enter (h : t.enter l = .ok ()) : t.get? l = some .directory := by
  unfold enter at h
  split at h
  · assumption
  · simp at h
  · simp at h

theorem walk_append : ∀ (xs : List Text) {a b : Location} (ys : List Text), t.walk a xs = .ok b →
    t.walk a (xs ++ ys) = t.walk b ys
  | [], a, b, ys, h => by
    obtain rfl : a = b := Except.ok.inj h
    rfl
  | x :: xs, a, b, ys, h => by
    rw [List.cons_append, walk]
    rw [walk] at h
    rcases he : t.enter a with e | u <;> rw [he] at h
    · simp [bind, Except.bind] at h
    · simp only [bind, Except.bind] at h ⊢
      split_ifs at h ⊢ <;> exact walk_append xs ys h

theorem walk_fileName (hn : n.IsFileName) (h : t.get? l = some .directory) :
    t.walk l [n] = .ok (l ++ [n]) := by
  rw [walk, enter_of_directory h]
  simp only [bind, Except.bind]
  rw [if_neg (by simp [hn.ne_nil, hn.ne_dot]), if_neg hn.ne_dots, walk]

theorem Holds.walk_join (h : t.Holds d l) (hn : n.IsFileName) :
    t.walk (t.start (d.join n)) (d.join n).segments = .ok (l ++ [n]) := by
  rw [start_join hn, Path.segments_join hn, walk_append _ _ h.walk_eq, walk_fileName hn h.directory]

theorem Holds.resolve_join (h : t.Holds d l) (hn : n.IsFileName) : t.resolve (d.join n)
    = (t.get? (l ++ [n])).elim (.error .notFound) fun e => .ok (l ++ [n], e) := by
  rw [resolve, Path.isEmpty_join hn, if_neg Bool.false_ne_true, h.walk_join hn]
  simp only [bind, Except.bind]
  rcases t.get? (l ++ [n]) with _ | e <;> rfl

theorem Holds.exists?_join (h : t.Holds d l) (hn : n.IsFileName) :
    t.exists? (d.join n) = (t.get? (l ++ [n])).isSome := by
  rw [exists?, h.resolve_join hn]
  rcases t.get? (l ++ [n]) with _ | e <;> rfl

theorem Holds.isFile_join (h : t.Holds d l) (hn : n.IsFileName)
    (hfile : t.isFile (d.join n) = true) : ∃ c, t.get? (l ++ [n]) = some (.file c) := by
  rw [isFile, h.resolve_join hn] at hfile
  rcases hget : t.get? (l ++ [n]) with _ | ⟨c | _⟩
  · simp [hget] at hfile
  · exact ⟨c, rfl⟩
  · simp [hget] at hfile

theorem Holds.read_join (h : t.Holds d l) (hn : n.IsFileName)
    (hget : t.get? (l ++ [n]) = some (.file c)) : t.read (d.join n) = .ok c := by
  rw [read, h.resolve_join hn, hget]
  rfl

theorem target_join (hn : n.IsFileName) : t.target (d.join n) = (do
    let l ← t.walk (t.start d) d.parents
    t.enter l
    return some (l ++ [n])) := by
  have hrev : (d.join n).segments.reverse.dropWhile (·.isEmpty) = n :: d.parents.reverse := by
    rw [Path.segments_join hn, List.reverse_append, List.reverse_singleton, List.singleton_append,
      List.dropWhile_cons_of_neg (by simpa using hn.ne_nil)]
  unfold target
  rw [Path.isEmpty_join hn, if_neg Bool.false_ne_true, hrev, start_join hn]
  simp only [List.reverse_reverse, if_neg (not_or.2 ⟨hn.ne_dot, hn.ne_dots⟩)]

theorem Holds.fileTarget_join (h : t.Holds d l) (hn : n.IsFileName)
    (hfree : t.get? (l ++ [n]) ≠ some .directory) : t.fileTarget (d.join n) = .ok (l ++ [n]) := by
  have htarget : t.target (d.join n) = .ok (some (l ++ [n])) := by
    rw [target_join hn, h.walk_eq]
    simp only [bind, Except.bind, enter_of_directory h.directory]
    rfl
  rw [fileTarget, htarget]
  exact if_neg (not_or.2 ⟨Path.getLast?_join hn, hfree⟩)

theorem write_of_fileTarget {p : Path} (h : t.fileTarget p = .ok l) :
    t.write p c = (.ok (), t.put l (.file c)) := by
  rw [write, h]

theorem Holds.write_join (h : t.Holds d l) (hn : n.IsFileName)
    (hfree : t.get? (l ++ [n]) ≠ some .directory) :
    t.write (d.join n) c = (.ok (), t.put (l ++ [n]) (.file c)) :=
  write_of_fileTarget (h.fileTarget_join hn hfree)

/-- Where a file can be written, the directory holds its files. -/
theorem exists_holds_of_fileTarget (hn : n.IsFileName) (h : t.fileTarget (d.join n) = .ok l) :
    ∃ k, t.Holds d k ∧ l = k ++ [n] ∧ t.get? l ≠ some .directory := by
  rw [fileTarget, target_join hn] at h
  rcases hwalk : t.walk (t.start d) d.parents with e | k <;> rw [hwalk] at h
  · simp [bind, Except.bind] at h
  · rcases henter : t.enter k with e | u
    · simp [bind, Except.bind, henter] at h
    · simp only [bind, Except.bind, henter, pure, Except.pure] at h
      split_ifs at h with hocc
      obtain rfl := Except.ok.inj h
      exact ⟨k, ⟨hwalk, directory_of_enter henter⟩, rfl, (not_or.1 hocc).2⟩

theorem exists_holds_of_write (hn : n.IsFileName) (h : (t.write (d.join n) c).1 = .ok ()) :
    ∃ l, t.Holds d l ∧ t.get? (l ++ [n]) ≠ some .directory := by
  rcases htarget : t.fileTarget (d.join n) with e | l
  · rw [write, htarget] at h
    simp at h
  · obtain ⟨k, hk, rfl, hfree⟩ := exists_holds_of_fileTarget hn htarget
    exact ⟨k, hk, hfree⟩

theorem exists_walk_of_append : ∀ (xs : List Text) {a b : Location} {ys : List Text},
    t.walk a (xs ++ ys) = .ok b → ∃ k, t.walk a xs = .ok k ∧ t.walk k ys = .ok b
  | [], a, _, _, h => ⟨a, rfl, h⟩
  | x :: xs, a, b, ys, h => by
    rw [List.cons_append, walk] at h
    rw [walk]
    rcases he : t.enter a with e | u <;> rw [he] at h
    · simp [bind, Except.bind] at h
    · simp only [bind, Except.bind] at h ⊢
      split_ifs at h ⊢ <;> exact exists_walk_of_append xs h

theorem walk_of_resolve {e : Entry} (h : t.resolve d = .ok (l, e)) :
    d.isEmpty = false ∧ t.walk (t.start d) d.segments = .ok l ∧ t.get? l = some e := by
  unfold resolve at h
  rcases hnil : d.isEmpty with _ | _ <;> rw [hnil] at h
  · rw [if_neg Bool.false_ne_true] at h
    rcases hwalk : t.walk (t.start d) d.segments with i | k <;> rw [hwalk] at h
    · simp [bind, Except.bind] at h
    · rcases hget : t.get? k with _ | f
      · simp [bind, Except.bind, hget] at h
      · simp only [bind, Except.bind, hget, pure, Except.pure, Except.ok.injEq,
          Prod.mk.injEq] at h
        obtain ⟨rfl, rfl⟩ := h
        exact ⟨rfl, rfl, hget⟩
  · simp [bind, Except.bind] at h

/-- A directory that is there holds its files where it is. -/
theorem exists_holds_of_isDirectory (h : t.isDirectory d = true) : ∃ l, t.Holds d l := by
  unfold isDirectory at h
  split at h
  · rename_i l hres
    obtain ⟨hnil, hwalk, hget⟩ := walk_of_resolve hres
    refine ⟨l, ?_, hget⟩
    unfold Path.parents
    split_ifs with hslash
    · -- a slash at the end leads nowhere else
      simp only [hnil, Bool.false_or, beq_iff_eq] at hslash
      obtain ⟨e, rfl⟩ := List.getLast?_eq_some_iff.1 hslash
      rw [Path.segments_append_slash e List.not_mem_nil] at hwalk ⊢
      rw [List.dropLast_concat]
      obtain ⟨b, hb, hbl⟩ := exists_walk_of_append _ hwalk
      rw [walk] at hbl
      rcases he : t.enter b with _ | _ <;> rw [he] at hbl
      · simp [bind, Except.bind] at hbl
      · obtain rfl : b = l := by simpa [bind, Except.bind, walk] using hbl
        exact hb
    · exact hwalk
  · simp at h

theorem get?_put_of_directory {a k : Location} (hne : k ≠ []) (hk : t.get? k ≠ some .directory)
    (ha : t.get? a = some .directory) : (t.put k (.file c)).get? a = some .directory := by
  have hak : a ≠ k := by
    rintro rfl
    exact hk ha
  rw [get?_put _ _ _ hne, if_neg hak, ha]

/-- A way through directories stays open as long as they stay directories. -/
theorem walk_of_directories {t' : FileTree}
    (h : ∀ a, t.get? a = some .directory → t'.get? a = some .directory) :
    ∀ (xs : List Text) {a b : Location}, t.walk a xs = .ok b → t'.walk a xs = .ok b
  | [], _, _, hwalk => hwalk
  | x :: xs, a, b, hwalk => by
    rw [walk] at hwalk ⊢
    rcases he : t.enter a with e | u <;> rw [he] at hwalk
    · simp [bind, Except.bind] at hwalk
    · have henter : t'.enter a = .ok () := enter_of_directory (h a (directory_of_enter he))
      simp only [bind, Except.bind, henter] at hwalk ⊢
      split_ifs at hwalk ⊢ <;> exact walk_of_directories h xs hwalk

theorem Holds.put (h : t.Holds d l) {k : Location} (hne : k ≠ [])
    (hk : t.get? k ≠ some .directory) : (t.put k (.file c)).Holds d l :=
  ⟨walk_of_directories (fun _ => get?_put_of_directory hne hk) _ h.walk_eq,
    get?_put_of_directory hne hk h.directory⟩

end FileTree

end HdlScaffold
