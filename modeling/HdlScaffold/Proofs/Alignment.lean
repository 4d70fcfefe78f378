import HdlScaffold.Document
import HdlScaffold.Proofs.Respacing
import HdlScaffold.Proofs.WrittenLines
import Mathlib.Data.List.Forall2

/-!
# Alignment

The columns that fields are moved to make gaps wider and nothing else: at least one tab stands between
two fields whatever the columns are (`respaced_align`). So what is written for a module under two
indents says the same, line by line and read as a source (`sameMeaning_of_indents`).
-/

namespace HdlScaffold

theorem isGap_tabs (n : Nat) : Text.IsGap (List.replicate (n + 1) '\t') :=
  ⟨by simp, fun c hc => by rw [List.eq_of_mem_replicate hc]; decide⟩

/-- Two indents put tabs in the same places. -/
theorem respaced_align (i j : Indent) (fields : List Text) :
    Respaced (i.align fields) (j.align fields) := by
  rcases List.eq_nil_or_concat' fields with rfl | ⟨leading, last, rfl⟩
  · exact .nil
  · rcases List.eq_nil_or_concat' leading with rfl | ⟨front, f, rfl⟩
    -- a field alone is not moved
    · have halone : ∀ k : Indent, k.align ([] ++ [last]) = last := fun k => by simp [Indent.align]
      rw [halone, halone]
      exact .refl last
    · have hshape : ∀ n : Nat,
          ((front ++ [f]).flatMap fun f => f ++ ['\t']) ++ (List.replicate n '\t' ++ last)
            = (front.flatMap fun f => f ++ ['\t']) ++ f ++ (List.replicate (n + 1) '\t' ++ last) := by
        intro n
        simp [List.replicate_succ]
      obtain ⟨n, hn⟩ := i.align_eq (front ++ [f]) last
      obtain ⟨k, hk⟩ := j.align_eq (front ++ [f]) last
      rw [hn, hk, hshape, hshape]
      exact (Respaced.refl _).append (.gap (isGap_tabs n) (isGap_tabs k) (.refl last))

theorem Respaced.ite {c : Prop} [Decidable c] {a b x y : Text} (h : Respaced a b)
    (h' : Respaced x y) : Respaced (if c then a else x) (if c then b else y) := by
  split_ifs
  · exact h
  · exact h'

theorem respaced_flatMap {α : Type} {f g : α → Text} (h : ∀ x, Respaced (f x) (g x)) :
    ∀ xs : List α, Respaced (xs.flatMap f) (xs.flatMap g)
  | [] => .nil
  | x :: xs => by
    rw [List.flatMap_cons, List.flatMap_cons]
    exact (h x).append (respaced_flatMap h xs)

theorem respaced_listLines {α : Type} {f g : α → Text} (h : ∀ x, Respaced (f x) (g x))
    (margin : Text) : ∀ xs : List α,
      Respaced (listLines margin (xs.map f)) (listLines margin (xs.map g))
  | [] => .nil
  | [x] => (((Respaced.refl _).append (h x)).append (.refl _))
  | x :: y :: xs => (((Respaced.refl _).append (h x)).append (.refl _)).append
      (respaced_listLines h margin (y :: xs))

namespace Style

variable (s : Style) (i : Indent) (m : Module)

theorem respaced_declaration : Respaced (s.declaration m) ({ s with indent := i }.declaration m) := by
  have hparameter : ∀ p, Respaced (s.parameterDeclaration p)
      ({ s with indent := i }.parameterDeclaration p) := fun p => respaced_align _ _ _
  have hport : ∀ p, Respaced (s.portDeclaration p) ({ s with indent := i }.portDeclaration p) :=
    fun p => respaced_align _ _ _
  refine ((((Respaced.refl _).append (.refl _)).append (.ite (.refl _) ?_)).append
    (.ite (.refl _) ?_)).append (.refl _)
  · exact ((Respaced.refl _).append (respaced_listLines hparameter _ _)).append (.refl _)
  · exact ((Respaced.refl _).append (respaced_listLines hport _ _)).append (.refl _)

theorem respaced_instantiation (instanceName margin : Text) :
    Respaced (s.instantiation m instanceName margin)
      ({ s with indent := i }.instantiation m instanceName margin) := by
  have hconnection : ∀ name value, Respaced (s.connection name value)
      ({ s with indent := i }.connection name value) := fun _ _ => respaced_align _ _ _
  have hlist : ∀ {α : Type} (name value : α → Text) (xs : List α),
      Respaced (listLines (margin ++ ['\t']) (xs.map fun x => s.connection (name x) (value x)))
        (listLines (margin ++ ['\t'])
          (xs.map fun x => { s with indent := i }.connection (name x) (value x))) :=
    fun _ _ => respaced_listLines (fun _ => hconnection _ _) _
  refine (((((Respaced.refl _).append (.refl _)).append (.ite (.refl _) ?_)).append
    (.refl _)).append (.refl _)).append (.ite (.refl _) ?_)
  · exact (((Respaced.refl _).append (hlist _ _ _)).append (.refl _)).append (.refl _)
  · exact (((Respaced.refl _).append (hlist _ _ _)).append (.refl _)).append (.refl _)

end Style

namespace FileOptions

variable (o : FileOptions) (i : Indent) (m : Module)

theorem respaced_moduleFile : Respaced (o.moduleFile m) ({ o with indent := i }.moduleFile m) :=
  (((Respaced.refl _).append (.refl _)).append (o.respaced_declaration i m)).append (.refl _)

theorem respaced_testbench : Respaced (o.testbench m) ({ o with indent := i }.testbench m) := by
  have hvariable : ∀ p, Respaced (o.variableDeclaration p)
      ({ o with indent := i }.variableDeclaration p) := fun p =>
    (respaced_align _ _ _).append (.refl _)
  have hvariables : ∀ d, Respaced (o.testbenchVariables m d)
      ({ o with indent := i }.testbenchVariables m d) := by
    intro d
    refine .ite (.refl _) (((Respaced.refl _).append (respaced_flatMap (fun p => ?_) _)).append
      (.refl _))
    exact ((Respaced.refl _).append (hvariable p)).append (.refl _)
  exact (((((Respaced.refl _).append (respaced_flatMap hvariables _)).append (.refl _)).append
    (o.respaced_instantiation i m _ _)).append (.refl _))

end FileOptions

/-- The texts have as many lines, with the same tokens and delimiters on each, and reading them as
sources comes to the same. -/
structure SameMeaning (t u : Text) : Prop where
  lines : List.Forall₂ (fun l k => lineTokens l = lineTokens k ∧
    Delimiters.ofLine? l = Delimiters.ofLine? k) t.lines u.lines
  ofSource? : Module.ofSource? t.encode = Module.ofSource? u.encode
  firstTimescale? : (Header.firstTimescale? (.ofBytes t.encode)).answer
    = (Header.firstTimescale? (.ofBytes u.encode)).answer

theorem Respaced.sameMeaning {t u : Text} (h : Respaced t u) : SameMeaning t u := by
  have halike : List.Forall₂ Text.Alike t.lines u.lines := h.lines.imp fun _ _ hlk => hlk.alike
  refine ⟨h.lines.imp fun _ _ hlk => ⟨hlk.lineTokens_eq, hlk.ofLine?_eq⟩, ?_, ?_⟩
  · exact (Header.firstModule?_agrees halike _ _ (LineReader.abreast_ofBytes t u)).1
  · exact (Header.firstTimescale?_agrees halike _ _ (LineReader.abreast_ofBytes t u)).1

/-- Whatever the module, its texts mean the same under every two indents. -/
theorem sameMeaning_of_indents (i j : Indent) (s : Style) (o : FileOptions) (m : Module)
    (instanceName margin : Text) :
    SameMeaning ({ s with indent := i }.declaration m) ({ s with indent := j }.declaration m) ∧
    SameMeaning ({ s with indent := i }.instantiation m instanceName margin)
      ({ s with indent := j }.instantiation m instanceName margin) ∧
    SameMeaning ({ o with indent := i }.moduleFile m) ({ o with indent := j }.moduleFile m) ∧
    SameMeaning ({ o with indent := i }.testbench m) ({ o with indent := j }.testbench m) :=
  ⟨(Style.respaced_declaration { s with indent := i } j m).sameMeaning,
    (Style.respaced_instantiation { s with indent := i } j m instanceName margin).sameMeaning,
    (FileOptions.respaced_moduleFile { o with indent := i } j m).sameMeaning,
    (FileOptions.respaced_testbench { o with indent := i } j m).sameMeaning⟩

end HdlScaffold
