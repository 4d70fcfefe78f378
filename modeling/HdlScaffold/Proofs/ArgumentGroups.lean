import HdlScaffold.ModuleRequest
import HdlScaffold.Proofs.Descriptions

/-!
# Descriptions in groups

Descriptions come as arguments of their own or several in one, with commas between. Which of them share
an argument makes no difference to the descriptions that are found (`Regrouped.splitDescriptions_eq`),
and those are the descriptions that stand on their own: what is found in them is again they
(`splitDescriptions_eq_self_iff`). So a request asks for the same module, or fails in the same way,
however its descriptions are grouped (`ModuleRequest.toModule_of_regrouped`).
-/

namespace HdlScaffold

namespace Text

/-- Texts in one, with commas between. -/
def joinCommas (ts : List Text) : Text := [','].intercalate ts

/-- The text is a description on its own: nothing of it would be left out, and it is not divided. -/
def IsDescription (d : Text) : Prop := d ≠ [] ∧ d.trim = d ∧ ',' ∉ d

/-- No part of a divided text holds the character it was divided at. -/
theorem not_mem_of_mem_splitOn {sep : Char} {d t : Text} (h : d ∈ t.splitOn sep) : sep ∉ d := by
  induction hn : t.length using Nat.strongRecOn generalizing t with
  | ind n ih =>
    by_cases ht : sep ∈ t
    · obtain ⟨a, b, rfl, ha⟩ := List.eq_append_cons_of_mem ht
      rw [List.splitOn_append_cons_self_of_not_mem ha, List.mem_cons] at h
      rcases h with rfl | h
      · exact ha
      · refine ih b.length ?_ h rfl
        simp only [List.length_append, List.length_cons] at hn
        omega
    · rw [List.splitOn_eq_singleton ht, List.mem_singleton] at h
      rwa [h]

end Text

open Text (joinCommas)

section Descriptions

theorem splitDescriptions_append (a b : List Text) :
    splitDescriptions (a ++ b) = splitDescriptions a ++ splitDescriptions b := by
  simp only [splitDescriptions, List.flatMap_append, List.map_append, List.filter_append]

theorem splitDescriptions_cons (a : Text) (args : List Text) :
    splitDescriptions (a :: args) = splitDescriptions [a] ++ splitDescriptions args :=
  splitDescriptions_append [a] args

/-- A comma inside an argument divides as the end of an argument does. -/
theorem splitDescriptions_comma (x y : Text) :
    splitDescriptions [x ++ ',' :: y] = splitDescriptions [x, y] := by
  simp only [splitDescriptions, List.flatMap_cons, List.flatMap_nil, List.append_nil,
    List.splitOn_append_cons_self]

theorem splitDescriptions_joinCommas : ∀ args : List Text,
    splitDescriptions [joinCommas args] = splitDescriptions args
  | [] => rfl
  | [a] => by rw [joinCommas, List.intercalate_singleton]
  | a :: b :: args => by
    have hjoin : joinCommas (a :: b :: args) = a ++ ',' :: joinCommas (b :: args) := by
      rw [joinCommas, List.intercalate_cons_cons, List.append_assoc]
      rfl
    rw [hjoin, splitDescriptions_comma, splitDescriptions_cons,
      splitDescriptions_joinCommas (b :: args), ← splitDescriptions_cons]

theorem isDescription_of_mem {d : Text} {args : List Text} (h : d ∈ splitDescriptions args) :
    d.IsDescription := by
  rw [splitDescriptions, List.mem_filter, List.mem_map] at h
  obtain ⟨⟨t, ht, rfl⟩, hne⟩ := h
  obtain ⟨a, -, ha⟩ := List.mem_flatMap.1 ht
  refine ⟨by simpa using hne, t.trim_trim, fun hcomma => ?_⟩
  exact Text.not_mem_of_mem_splitOn ha (Text.mem_of_mem_trim hcomma)

theorem splitDescriptions_singleton {d : Text} (h : d.IsDescription) :
    splitDescriptions [d] = [d] := by
  obtain ⟨hne, htrim, hcomma⟩ := h
  simp [splitDescriptions, List.splitOn_eq_singleton hcomma, htrim, hne]

/-- Dividing leaves a list as it is if and only if it holds descriptions on their own. -/
theorem splitDescriptions_eq_self_iff {ds : List Text} :
    splitDescriptions ds = ds ↔ ∀ d ∈ ds, d.IsDescription := by
  constructor
  · intro h d hd
    rw [← h] at hd
    exact isDescription_of_mem hd
  · intro h
    induction ds with
    | nil => rfl
    | cons d ds ih =>
      rw [splitDescriptions_cons, splitDescriptions_singleton (h d List.mem_cons_self),
        ih fun e he => h e (List.mem_cons_of_mem _ he), List.singleton_append]

end Descriptions

/-- The same descriptions, with others of them in one argument: some arguments that follow each other,
perhaps none or one, are put into one, or one is divided in this way, any number of times. -/
inductive Regrouped : List Text → List Text → Prop
  | join (before group after : List Text) :
    Regrouped (before ++ group ++ after) (before ++ [joinCommas group] ++ after)
  | refl (args : List Text) : Regrouped args args
  | symm {args args' : List Text} : Regrouped args args' → Regrouped args' args
  | trans {args args' args'' : List Text} :
    Regrouped args args' → Regrouped args' args'' → Regrouped args args''

theorem Regrouped.splitDescriptions_eq {args args' : List Text} (h : Regrouped args args') :
    splitDescriptions args = splitDescriptions args' := by
  induction h with
  | join before group after =>
    simp only [splitDescriptions_append, splitDescriptions_joinCommas]
  | refl args => rfl
  | symm _ ih => exact ih.symm
  | trans _ _ ih ih' => exact ih.trans ih'

namespace ModuleRequest

/-- The same request with its descriptions given by other arguments. -/
def withArguments (r : ModuleRequest) (inputs outputs inouts parameters : List Text) :
    ModuleRequest := { r with inputs, outputs, inouts, parameters }

variable {r : ModuleRequest} {inputs outputs inouts parameters : List Text}

theorem toModule_of_regrouped (hi : Regrouped r.inputs inputs) (ho : Regrouped r.outputs outputs)
    (hio : Regrouped r.inouts inouts) (hp : Regrouped r.parameters parameters) :
    (r.withArguments inputs outputs inouts parameters).toModule = r.toModule := by
  simp only [toModule, portDescriptions, withArguments, List.flatMap_cons, List.flatMap_nil,
    hi.splitDescriptions_eq, ho.splitDescriptions_eq, hio.splitDescriptions_eq,
    hp.splitDescriptions_eq]

/-- Arguments joined by commas hold the same descriptions, lists of arguments one after the other hold
theirs one after the other, and each description found stands on its own, so that it is found again as
it is. A request with regrouped arguments asks for the same module or fails in the same way. -/
theorem toModule_withArguments :
    (∀ args : List Text, splitDescriptions args = splitDescriptions [joinCommas args]) ∧
    (∀ a b : List Text, splitDescriptions (a ++ b) = splitDescriptions a ++ splitDescriptions b) ∧
    (∀ args : List Text, ∀ d ∈ splitDescriptions args, d ≠ [] ∧ d.trim = d ∧ ',' ∉ d) ∧
    (∀ args : List Text, splitDescriptions (splitDescriptions args) = splitDescriptions args) ∧
    (∀ ds : List Text, (∀ d ∈ ds, d ≠ [] ∧ d.trim = d ∧ ',' ∉ d) → splitDescriptions ds = ds) ∧
    ∀ (r : ModuleRequest) (inputs outputs inouts parameters : List Text),
      Regrouped r.inputs inputs → Regrouped r.outputs outputs → Regrouped r.inouts inouts →
      Regrouped r.parameters parameters →
      (r.withArguments inputs outputs inouts parameters).toModule = r.toModule := by
  refine ⟨fun args => (splitDescriptions_joinCommas args).symm, splitDescriptions_append,
    fun _ _ => isDescription_of_mem, fun args => ?_, fun _ => splitDescriptions_eq_self_iff.2,
    fun _ _ _ _ _ => toModule_of_regrouped⟩
  exact splitDescriptions_eq_self_iff.2 fun _ => isDescription_of_mem

/-- Empty and blank descriptions among the inputs, and two outputs that are refused. -/
def crowdedRequest : ModuleRequest where
  name := "m".toList
  inputs := ["clk".toList, ",d#8,".toList, [], " , en ".toList]
  outputs := ["q#0".toList, "a b".toList]
  parameters := ["A=1,B".toList]

/-- With all inputs in one argument, the outputs in one and the parameters apart, the first output is
still the one refused. -/
theorem toModule_withArguments_crowdedRequest :
    splitDescriptions crowdedRequest.inputs = ["clk".toList, "d#8".toList, "en".toList] ∧
    splitDescriptions ["clk".toList, "d#8".toList, "en".toList]
      = ["clk".toList, "d#8".toList, "en".toList] ∧
    Text.trim "en".toList = "en".toList ∧
    (crowdedRequest.withArguments ["clk,,d#8,,, , en ".toList] ["q#0,a b".toList] [[]]
      ["A=1".toList, "B".toList]).toModule = crowdedRequest.toModule ∧
    crowdedRequest.toModule.map Module.name =
      .error (.invalidSpec "q#0".toList .widthNotPositive) := by
  obtain ⟨-, -, hfound, -, hself, hmodule⟩ := toModule_withArguments
  have hsplit : splitDescriptions crowdedRequest.inputs
      = ["clk".toList, "d#8".toList, "en".toList] := by decide +kernel
  have hen : "en".toList ∈ splitDescriptions crowdedRequest.inputs := by
    rw [hsplit]
    simp
  refine ⟨hsplit, hself _ (by decide +kernel), (hfound _ _ hen).2.1, ?_, by decide +kernel⟩
  refine hmodule crowdedRequest _ _ _ _ ?_ ?_ ?_ ?_
  · exact .join [] crowdedRequest.inputs []
  · exact .join [] crowdedRequest.outputs []
  · exact .join [] [] []
  · exact .symm (.join [] ["A=1".toList, "B".toList] [])

end ModuleRequest

end HdlScaffold
