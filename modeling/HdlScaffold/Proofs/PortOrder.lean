import HdlScaffold.Module
import Mathlib.Tactic.SplitIfs

/-!
# The order of ports

Ports are put into a table one after the other, each behind the others of its direction
(`PortTable.ofList_eq_foldl_push`). Listing the table sorts them by direction and leaves those of one
direction in order (`PortTable.eq_toList_ofList_iff`). Nothing else about their order shows in a table,
and so in a module (`PortTable.ofList_listing`).
-/

namespace HdlScaffold

/-- The place of the direction in listings. -/
def Direction.rank (d : Direction) : Nat := all.idxOf d

section Lists

variable {l : List Port} {p q : Port}

/-- `l` has the ports sorted by direction, those of one direction in the order they had. -/
structure StablySorts (l ports : List Port) : Prop where
  perm : l.Perm ports
  sorted : l.Pairwise fun p q => p.direction.rank ≤ q.direction.rank
  stable : ∀ d, l.filter (fun p => p.direction = d) = ports.filter fun p => p.direction = d

/-- Lists of ports are compared port by port, in what counts of them. -/
theorem ports_beq_iff {l l' : List Port} :
    (l == l') = true ↔ l.map Port.outline = l'.map Port.outline := by
  induction l generalizing l' with
  | nil => cases l' <;> simp
  | cons p l ih =>
    cases l' with
    | nil => simp
    | cons q l' =>
      have hports : (p == q) = (p.outline == q.outline) := rfl
      rw [List.cons_beq_cons, Bool.and_eq_true, hports, beq_iff_eq, ih, List.map_cons, List.map_cons,
        List.cons.injEq]

/-- At most one of two ports of different directions has the given one. -/
theorem filter_swap (h : p.direction ≠ q.direction) (d : Direction) (before after : List Port) :
    (before ++ p :: q :: after).filter (fun r => r.direction = d)
      = (before ++ q :: p :: after).filter fun r => r.direction = d := by
  simp only [List.filter_append, List.filter_cons, decide_eq_true_eq]
  split_ifs with hp hq
  · exact absurd (hp.trans hq.symm) h
  all_goals rfl

/-- Sorted ports are the inputs, then the outputs, then the others. -/
theorem eq_flatMap_filter (h : l.Pairwise fun p q => p.direction.rank ≤ q.direction.rank) :
    l = Direction.all.flatMap fun d => l.filter fun p => p.direction = d := by
  induction l with
  | nil => rfl
  | cons p l ih =>
    obtain ⟨hp, hl⟩ := List.pairwise_cons.1 h
    have hnone : ∀ d : Direction, d.rank < p.direction.rank →
        l.filter (fun q => q.direction = d) = [] := by
      intro d hd
      refine List.filter_eq_nil_iff.2 fun q hq hqd => ?_
      have hle := hp q hq
      rw [of_decide_eq_true hqd] at hle
      omega
    have hlist := ih hl
    simp only [Direction.all, List.flatMap_cons, List.flatMap_nil, List.filter_cons] at hlist ⊢
    -- the directions in front of the first port's have no ports left
    cases hdirection : p.direction with
    | input => simpa using hlist
    | output =>
      have hinput := hnone .input (by rw [hdirection]; decide)
      simpa [hinput] using hlist
    | inout =>
      have hinput := hnone .input (by rw [hdirection]; decide)
      have houtput := hnone .output (by rw [hdirection]; decide)
      simpa [hinput, houtput] using hlist

end Lists

namespace PortTable

variable {s t : PortTable}

theorem get_ofList (ports : List Port) (d : Direction) :
    (ofList ports).get d = ports.filter fun p => p.direction = d := rfl

theorem filter_toList (t : PortTable) (d : Direction) :
    t.toList.filter (fun p => p.direction = d) = t.get d := by
  have hsame : (t.get d).filter (fun p => p.direction = d) = t.get d :=
    List.filter_eq_self.2 fun p hp => by simp [t.direction_of_mem d p hp]
  have hother : ∀ e, e ≠ d → (t.get e).filter (fun p => p.direction = d) = [] := by
    intro e he
    refine List.filter_eq_nil_iff.2 fun p hp => ?_
    simp [t.direction_of_mem e p hp, he]
  rw [toList, Direction.all]
  cases d <;> simp [hsame, hother]

/-- A table is the table of its listing. -/
theorem ofList_toList (t : PortTable) : ofList t.toList = t :=
  ext fun d => by rw [get_ofList, filter_toList]

theorem ofList_eq_iff {ports others : List Port} : ofList ports = ofList others ↔
    ∀ d, ports.filter (fun p => p.direction = d) = others.filter fun p => p.direction = d :=
  ⟨fun h d => by rw [← get_ofList, h, get_ofList], fun h => ext h⟩

/-- Listings agree in what counts when the ports of each direction do. -/
theorem map_outline_toList_iff : s.toList.map Port.outline = t.toList.map Port.outline ↔
    ∀ d, (s.get d).map Port.outline = (t.get d).map Port.outline := by
  have hfilter : ∀ (ps : List Port) d, (ps.filter fun p => p.direction = d).map Port.outline
      = (ps.map Port.outline).filter fun o => o.1 = d := by
    intro ps d
    rw [List.filter_map]
    rfl
  constructor
  · intro h d
    rw [← s.filter_toList, ← t.filter_toList, hfilter, hfilter, h]
  · intro h
    simp only [toList, List.map_flatMap, h]

theorem pairwise_toList (t : PortTable) :
    t.toList.Pairwise fun p q => p.direction.rank ≤ q.direction.rank := by
  refine List.pairwise_flatMap.2 ⟨fun d _ => ?_, ?_⟩
  · refine List.pairwise_of_forall_mem_list fun p hp q hq => ?_
    exact Nat.le_of_eq (by rw [t.direction_of_mem d p hp, t.direction_of_mem d q hq])
  · have hranks : Direction.all.Pairwise fun d e => d.rank ≤ e.rank := by decide
    refine hranks.imp fun hle p hp q hq => ?_
    rwa [t.direction_of_mem _ p hp, t.direction_of_mem _ q hq]

section Pushing

/-- The table without ports. -/
def empty : PortTable where
  get _ := []
  direction_of_mem _ _ hp := absurd hp List.not_mem_nil

/-- The table with one more port, the last one of its direction. -/
def push (t : PortTable) (p : Port) : PortTable where
  get d := if p.direction = d then t.get d ++ [p] else t.get d
  direction_of_mem d q hq := by
    split_ifs at hq with hp
    · rcases List.mem_append.1 hq with hq | hq
      · exact t.direction_of_mem d q hq
      · rw [List.mem_singleton.1 hq, hp]
    · exact t.direction_of_mem d q hq

theorem get_push (t : PortTable) (p : Port) (d : Direction) :
    (t.push p).get d = t.get d ++ [p].filter fun q => q.direction = d := by
  simp only [push, List.filter_cons, List.filter_nil, decide_eq_true_eq]
  split_ifs
  · rfl
  · exact (List.append_nil _).symm

theorem get_foldl_push (ports : List Port) (t : PortTable) (d : Direction) :
    (ports.foldl push t).get d = t.get d ++ ports.filter fun p => p.direction = d := by
  induction ports generalizing t with
  | nil => exact (List.append_nil _).symm
  | cons p ports ih =>
    rw [List.foldl_cons, ih, get_push, List.append_assoc, ← List.filter_append, List.singleton_append]

theorem ofList_eq_foldl_push (ports : List Port) : ofList ports = ports.foldl push empty :=
  ext fun d => by rw [get_foldl_push, get_ofList]; rfl

/-- A port that is added shows once more in the listing, somewhere. -/
theorem toList_push_perm (t : PortTable) (p : Port) : (t.push p).toList.Perm (t.toList ++ [p]) := by
  have hmiddle : ∀ before after : List Port, t.toList = before ++ after →
      (before ++ p :: after).Perm (t.toList ++ [p]) := by
    intro before after h
    rw [h]
    exact List.perm_middle.trans (List.perm_append_singleton p _).symm
  have hlist : ∀ u : PortTable, u.toList = u.get .input ++ (u.get .output ++ u.get .inout) := by
    intro u
    simp [toList, Direction.all]
  rw [hlist (t.push p)]
  simp only [push]
  cases p.direction with
  | input =>
    have := hmiddle (t.get .input) (t.get .output ++ t.get .inout) (hlist t)
    simpa using this
  | output =>
    have := hmiddle (t.get .input ++ t.get .output) (t.get .inout) (by simp [hlist])
    simpa using this
  | inout =>
    have := hmiddle (t.get .input ++ t.get .output ++ t.get .inout) [] (by simp [hlist])
    simpa using this

theorem toList_foldl_push_perm (ports : List Port) (t : PortTable) :
    (ports.foldl push t).toList.Perm (t.toList ++ ports) := by
  induction ports generalizing t with
  | nil => rw [List.append_nil]; exact .refl _
  | cons p ports ih =>
    rw [List.foldl_cons, ← List.singleton_append, ← List.append_assoc]
    exact (ih (t.push p)).trans ((t.toList_push_perm p).append_right ports)

end Pushing

theorem stablySorts_toList_ofList (ports : List Port) : StablySorts (ofList ports).toList ports where
  perm := by
    rw [ofList_eq_foldl_push]
    exact toList_foldl_push_perm ports empty
  sorted := pairwise_toList _
  stable := filter_toList _

/-- The listing is the only way to sort the ports by direction and keep their order otherwise. -/
theorem eq_toList_ofList_iff {l ports : List Port} :
    l = (ofList ports).toList ↔ StablySorts l ports := by
  constructor
  · rintro rfl
    exact stablySorts_toList_ofList ports
  · intro h
    rw [← ofList_eq_iff.2 h.stable]
    exact eq_flatMap_filter h.sorted

/-- A table lists ports by direction and keeps their order otherwise. It holds each of them once, under
its own direction, and is made again from its listing. Tables are equal, and their listings compare as
equal, if the ports of each direction do, so neighbours of different directions can change places. -/
theorem ofList_listing (ports : List Port) :
    ofList ports = ports.foldl push empty ∧
    (∀ l, l = (ofList ports).toList ↔ StablySorts l ports) ∧
    (∀ d, ∀ p ∈ (ofList ports).get d, p.direction = d) ∧
    (ofList ports).size = ports.length ∧
    ofList (ofList ports).toList = ofList ports ∧
    (∀ others, ofList ports = ofList others ↔
      ∀ d, ports.filter (fun p => p.direction = d) = others.filter fun p => p.direction = d) ∧
    (∀ others, ((ofList ports).toList == (ofList others).toList) = true ↔
      ∀ d, ((ports.filter fun p => p.direction = d) == others.filter fun p => p.direction = d) = true) ∧
    ∀ name parameters before after p q, ports = before ++ p :: q :: after →
      p.direction ≠ q.direction → Module.create name parameters ports
        = Module.create name parameters (before ++ q :: p :: after) := by
  refine ⟨ofList_eq_foldl_push ports, fun l => eq_toList_ofList_iff, (ofList ports).direction_of_mem,
    ?_, ofList_toList _, fun others => ofList_eq_iff, fun others => ?_, ?_⟩
  · rw [← length_toList]
    exact (stablySorts_toList_ofList ports).perm.length_eq
  · simp only [ports_beq_iff, map_outline_toList_iff, get_ofList]
  · rintro name parameters before after p q rfl hne
    simp only [Module.create, ofList_eq_iff.2 fun d => filter_swap hne d before after]

def padPort : Port where
  direction := .inout
  identifier := "pad".toList
  width := none
  solid := by decide

def statePort : Port where
  direction := .output
  identifier := ['q']
  width := some (.bits 8)
  solid := by decide

def clockPort : Port where
  direction := .input
  identifier := "clk".toList
  width := none
  solid := by decide

theorem ofList_listing_unsorted :
    (ofList [padPort, statePort, clockPort]).toList = [clockPort, statePort, padPort] ∧
    (ofList [padPort, statePort, clockPort]).size = 3 ∧
    padPort.direction ≠ statePort.direction ∧
    Module.create ['m'] [] [padPort, statePort, clockPort]
      = Module.create ['m'] [] [statePort, padPort, clockPort] := by
  obtain ⟨-, -, -, hsize, -, -, -, hswap⟩ := ofList_listing [padPort, statePort, clockPort]
  exact ⟨rfl, hsize, by decide, hswap _ _ [] [clockPort] _ _ rfl (by decide)⟩

end PortTable

end HdlScaffold
