import MsProjects.Infra.Ring
import MsProjects.Dht.Join

/-! # join を受け取った node の動き -/

namespace Dht

open Infra List Function Dht.Graph Option

variable {ι : Type} {H : Type*}

/-! ## graph の読み書き -/

namespace Graph

def names (g : Graph ι) : List ι := g.nodes.map fun n => n.name

/-- object `i` の `successor` の参照。 -/
def succRef (g : Graph ι) (i : Nat) : Option Nat := g.nodes[i]?.bind fun n => n.successor

/-- object `i` の `predessor` の参照。 -/
def predRef (g : Graph ι) (i : Nat) : Option Nat := g.nodes[i]?.bind fun n => n.predessor

def name (g : Graph ι) : Option ι := g.myNode.map fun n => n.name

def succName (g : Graph ι) : Option ι := g.successor.map fun n => n.name

def predName (g : Graph ι) : Option ι := g.predessor.map fun n => n.name

/-- `myNode.successor.successor.name`。 -/
def succSuccName (g : Graph ι) : Option ι := g.successorSuccessor.map fun n => n.name

variable (g : Graph ι) (i r : Nat) (x : Option Nat)

theorem map_name_deref (p : Option Nat) :
    (g.deref p).map (fun n => n.name) = p.bind fun j => g.names[j]? := by
  cases p <;> simp [deref, names]

theorem name_eq : g.name = g.names[g.root]? := by simp [name, myNode, names]

theorem succName_eq : g.succName = (g.succRef g.root).bind fun j => g.names[j]? := by
  rw [succName, successor, myNode, succRef]
  cases g.nodes[g.root]? <;> simp [map_name_deref]

theorem predName_eq : g.predName = (g.predRef g.root).bind fun j => g.names[j]? := by
  rw [predName, predessor, myNode, predRef]
  cases g.nodes[g.root]? <;> simp [map_name_deref]

theorem succSuccName_eq : g.succSuccName =
    ((g.succRef g.root).bind fun j => g.succRef j).bind fun j => g.names[j]? := by
  rw [succSuccName, successorSuccessor, successor, myNode, succRef]
  cases hroot : g.nodes[g.root]? with
  | none => rfl
  | some n =>
    cases hsuc : n.successor with
    | none => simp [deref, hsuc]
    | some j =>
      simp only [bind_some, deref, hsuc, succRef]
      cases g.nodes[j]? <;> simp [names, map_bind]

@[simp] theorem root_setSuccessor : (g.setSuccessor r x).root = g.root := rfl

@[simp] theorem root_setPredessor : (g.setPredessor r x).root = g.root := rfl

@[simp] theorem root_rootedAt : (g.rootedAt r).root = r := rfl

@[simp] theorem names_rootedAt : (g.rootedAt r).names = g.names := rfl

@[simp] theorem succRef_rootedAt : (g.rootedAt r).succRef i = g.succRef i := rfl

@[simp] theorem predRef_rootedAt : (g.rootedAt r).predRef i = g.predRef i := rfl

@[simp] theorem names_setSuccessor : (g.setSuccessor r x).names = g.names := by
  refine ext_getElem? fun j => ?_
  simp only [names, setSuccessor, getElem?_map, getElem?_modify]
  cases g.nodes[j]? with
  | none => rfl
  | some n => simp; split <;> rfl

@[simp] theorem names_setPredessor : (g.setPredessor r x).names = g.names := by
  refine ext_getElem? fun j => ?_
  simp only [names, setPredessor, getElem?_map, getElem?_modify]
  cases g.nodes[j]? with
  | none => rfl
  | some n => simp; split <;> rfl

@[simp] theorem length_setSuccessor : (g.setSuccessor r x).nodes.length = g.nodes.length := by
  simp [setSuccessor]

@[simp] theorem length_setPredessor : (g.setPredessor r x).nodes.length = g.nodes.length := by
  simp [setPredessor]

theorem succRef_setSuccessor_self (h : r < g.nodes.length) : (g.setSuccessor r x).succRef r = x := by
  simp [succRef, setSuccessor, getElem?_eq_getElem h]

theorem succRef_setSuccessor_of_ne (h : r ≠ i) : (g.setSuccessor r x).succRef i = g.succRef i := by
  simp [succRef, setSuccessor, h]

@[simp] theorem succRef_setPredessor : (g.setPredessor r x).succRef i = g.succRef i := by
  simp only [succRef, setPredessor, getElem?_modify]
  cases g.nodes[i]? with
  | none => rfl
  | some n => simp; split <;> rfl

theorem predRef_setPredessor_self (h : r < g.nodes.length) : (g.setPredessor r x).predRef r = x := by
  simp [predRef, setPredessor, getElem?_eq_getElem h]

theorem predRef_setPredessor_of_ne (h : r ≠ i) : (g.setPredessor r x).predRef i = g.predRef i := by
  simp [predRef, setPredessor, h]

@[simp] theorem predRef_setSuccessor : (g.setSuccessor r x).predRef i = g.predRef i := by
  simp only [predRef, setSuccessor, getElem?_modify]
  cases g.nodes[i]? with
  | none => rfl
  | some n => simp; split <;> rfl

@[simp] theorem root_receive (sender : ι) : (g.receive sender).root = g.root := rfl

@[simp] theorem names_receive (sender : ι) : (g.receive sender).names = g.names ++ [sender] := by
  simp [names, receive]

@[simp] theorem length_receive (sender : ι) :
    (g.receive sender).nodes.length = g.nodes.length + 1 := by simp [receive]

theorem length_names : g.names.length = g.nodes.length := by simp [names]

theorem succRef_receive (sender : ι) : (g.receive sender).succRef i = g.succRef i := by
  simp only [succRef, receive, getElem?_append]
  split
  · rfl
  · next h =>
    rw [getElem?_eq_none (Nat.le_of_not_lt h)]
    cases i - g.nodes.length <;> rfl

theorem predRef_receive (sender : ι) : (g.receive sender).predRef i = g.predRef i := by
  simp only [predRef, receive, getElem?_append]
  split
  · rfl
  · next h =>
    rw [getElem?_eq_none (Nat.le_of_not_lt h)]
    cases i - g.nodes.length <;> rfl

end Graph

theorem getElem?_concat_eq_some_iff {l : List ι} {i : Nat} {j t : ι} (h : t ≠ j) :
    (l ++ [j])[i]? = some t ↔ l[i]? = some t := by
  rw [getElem?_append]
  split
  · rfl
  · next hi =>
    rw [getElem?_eq_none (Nat.le_of_not_lt hi)]
    cases i - l.length <;> simp [h.symm]

theorem bind_getElem?_concat_eq_some_iff {l : List ι} {p : Option Nat} {j t : ι} (h : t ≠ j) :
    (p.bind fun i => (l ++ [j])[i]?) = some t ↔ (p.bind fun i => l[i]?) = some t := by
  cases p with
  | none => rfl
  | some i => exact getElem?_concat_eq_some_iff h

section

variable {g : Graph ι} {j x y : ι} {suc : Nat}

theorem receive_facts (hname : g.name = some x) (j : ι) : g.root < g.nodes.length ∧
    (g.names ++ [j])[g.nodes.length]? = some j ∧ (g.names ++ [j])[g.root]? = some x := by
  rw [name_eq] at hname
  have hroot : g.root < g.names.length := (List.getElem?_eq_some_iff.mp hname).1
  rw [getElem?_append_left hroot, ← length_names]
  exact ⟨hroot, by simp, hname⟩

theorem insertAfterMe_spec (hname : g.name = some x) (hsuc : g.succRef g.root = some suc)
    (hy : g.names[suc]? = some y) (hne : suc ≠ g.root) :
    ∃ g' gJ gS, insertAfterMe (g.receive j) g.nodes.length suc j y =
        (g', [.modifiedNode j gJ, .modifiedNode y gS]) ∧
      (g'.name = some x ∧ g'.succName = some j ∧
        ∀ t, t ≠ j → (g'.predName = some t ↔ g.predName = some t)) ∧
      (gJ.name = some j ∧ gJ.succName = some y ∧ gJ.predName = some x) ∧
      gS.name = some y ∧ gS.predName = some j ∧
        ∀ t, t ≠ j → (gS.succName = some t ↔ g.succSuccName = some t) := by
  obtain ⟨hroot, hjoiner, hname'⟩ := receive_facts hname j
  have hlt : suc < g.names.length := (List.getElem?_eq_some_iff.mp hy).1
  have hy' : (g.names ++ [j])[suc]? = some y := by rw [getElem?_append_left hlt, hy]
  rw [length_names] at hlt
  refine ⟨_, _, _, rfl, ⟨?_, ?_, ?_⟩, ⟨?_, ?_, ?_⟩, ?_, ?_, ?_⟩
  · simp [name_eq, hname']
  · rw [succName_eq]
    simp [succRef_setSuccessor_self, hjoiner, Nat.lt_succ_of_lt hroot]
  · intro t ht
    rw [predName_eq, predName_eq]
    simp [predRef_setPredessor_of_ne, hne, hroot.ne', predRef_receive,
      bind_getElem?_concat_eq_some_iff ht]
  · simp [name_eq, hjoiner]
  · rw [succName_eq]
    simp [succRef_setSuccessor_self, hy']
  · rw [predName_eq]
    simp [predRef_setPredessor_self, hname']
  · simp [name_eq, hy']
  · rw [predName_eq]
    simp [predRef_setPredessor_self, hjoiner, Nat.lt_succ_of_lt hlt]
  · intro t ht
    rw [succName_eq, succSuccName_eq]
    simp [succRef_setSuccessor_of_ne, hne.symm, hlt.ne', succRef_receive, hsuc,
      bind_getElem?_concat_eq_some_iff ht]

theorem firstJoin_spec (hname : g.name = some x) :
    ∃ g' gJ, firstJoin (g.receive j) g.nodes.length j = (g', [.modifiedNode j gJ]) ∧
      (g'.name = some x ∧ g'.succName = some j ∧ g'.predName = some j) ∧
      gJ.name = some j ∧ gJ.succName = some x ∧ gJ.predName = some x := by
  obtain ⟨hroot, hjoiner, hname'⟩ := receive_facts hname j
  refine ⟨_, _, rfl, ⟨?_, ?_, ?_⟩, ?_, ?_, ?_⟩
  · simp [name_eq, hname']
  · rw [succName_eq]
    simp [succRef_setSuccessor_self, hjoiner, Nat.lt_succ_of_lt hroot]
  · rw [predName_eq]
    simp [predRef_setPredessor_self, hjoiner, Nat.lt_succ_of_lt hroot]
  · simp [name_eq, hjoiner]
  · rw [succName_eq]
    simp [succRef_setSuccessor_of_ne, succRef_setSuccessor_self, hroot.ne, hname']
  · rw [predName_eq]
    simp [predRef_setPredessor_of_ne, predRef_setPredessor_self, hroot.ne, hname']

variable [DecidableEq ι]

theorem insertAfterSuccessor_spec (hname : g.name = some x) {sucNode : Node ι}
    (hsuc : g.nodes[suc]? = some sucNode) :
    ∃ g' sent gS, insertAfterSuccessor (g.receive j) g.nodes.length suc j sucNode x = (g', sent) ∧
      .modifiedNode sucNode.name gS ∈ sent ∧ gS.succName = some j ∧
      (∀ t, t ≠ j → (g'.predName = some t ↔ g.predName = some t)) ∧
      ∀ m ∈ sent, m = .modifiedNode sucNode.name gS ∨ ∃ gJ, m = .modifiedNode j gJ := by
  obtain ⟨hroot, hjoiner, -⟩ := receive_facts hname j
  have hlt : suc < g.nodes.length := (List.getElem?_eq_some_iff.mp hsuc).1
  refine ⟨_, _, _, rfl, mem_append_left _ (mem_cons_of_mem _ mem_cons_self), ?_, ?_, ?_⟩
  · rw [succName_eq]
    simp [succRef_setSuccessor_self, hjoiner, Nat.lt_succ_of_lt hlt]
  · intro t ht
    rw [predName_eq, predName_eq]
    simp [predRef_setPredessor_of_ne, hroot.ne', predRef_receive,
      bind_getElem?_concat_eq_some_iff ht]
  · intro m hm
    rcases mem_append.mp hm with hm | hm
    · rcases mem_cons.mp hm with rfl | hm
      · exact .inr ⟨_, rfl⟩
      · exact .inl (mem_singleton.mp hm)
    · split at hm
      · exact .inr ⟨_, mem_singleton.mp hm⟩
      · cases hm

variable [LinearOrder H] {hashKey : ι → H}

/-- 転送せずに join を終えた node `x` の動き。 -/
inductive Handled (hashKey : ι → H) (g : Graph ι) (suc : Nat) (sucNode : Node ι) (j x y : ι) :
    Graph ι × List (Message ι) → Prop
  | insert (hne : x ≠ y) (hbetween : Between hashKey x j y) :
      Handled hashKey g suc sucNode j x y (insertAfterMe (g.receive j) g.nodes.length suc j y)
  | first (heq : x = y) :
      Handled hashKey g suc sucNode j x y (firstJoin (g.receive j) g.nodes.length j)
  | afterSuccessor (hnext : hashKey y < hashKey j) (hown : hashKey j < hashKey x) :
      Handled hashKey g suc sucNode j x y
        (insertAfterSuccessor (g.receive j) g.nodes.length suc j sucNode x)

theorem processJoinRequestMsg_cases (hinj : Injective hashKey)
    (hname : g.name = some x) (hsucc : g.succName = some y) (hx : x ≠ j) (hy : y ≠ j) :
    ∃ suc sucNode, g.succRef g.root = some suc ∧ g.nodes[suc]? = some sucNode ∧ sucNode.name = y ∧
      ((hashKey x < hashKey y ∧ ¬ (hashKey x < hashKey j ∧ hashKey j < hashKey y) ∧
          processJoinRequestMsg hashKey g j = some (g, [.join y j])) ∨
        ∃ r, Handled hashKey g suc sucNode j x y r ∧ processJoinRequestMsg hashKey g j = some r) := by
  obtain ⟨me, hme, rfl⟩ := map_eq_some_iff.mp hname
  obtain ⟨sucNode, hsuc, rfl⟩ := map_eq_some_iff.mp hsucc
  rw [successor, hme, bind_some, deref] at hsuc
  obtain ⟨suc, href, hsuc⟩ := bind_eq_some_iff.mp hsuc
  have hsuccRef : g.succRef g.root = some suc := by
    rw [succRef, ← myNode, hme, bind_some, href]
  refine ⟨suc, sucNode, hsuccRef, hsuc, rfl, ?_⟩
  simp only [processJoinRequestMsg, hme, href, hsuc, bind_eq_bind, bind_some, gt_iff_lt, pure]
  by_cases hin : hashKey me.name < hashKey j ∧ hashKey j < hashKey sucNode.name
  · have hne : me.name ≠ sucNode.name := fun heq => lt_asymm hin.1 (heq ▸ hin.2)
    exact .inr ⟨_, .insert hne (.inl hin), if_pos hin⟩
  simp only [if_neg hin]
  by_cases hself : sucNode.name = me.name
  · exact .inr ⟨_, .first hself.symm, if_pos hself⟩
  simp only [if_neg hself]
  by_cases hwrap : hashKey sucNode.name < hashKey me.name
  · -- 自分が最大の node で、次は最小の node である
    simp only [if_pos hwrap]
    rcases lt_or_gt_of_ne (hinj.ne hx) with hown | hown
    · exact .inr ⟨_, .insert (Ne.symm hself) (.inr ⟨hwrap.le, .inl hown⟩),
        if_pos ⟨hwrap.trans hown, hown⟩⟩
    have hnot : ¬ (hashKey sucNode.name < hashKey j ∧ hashKey me.name < hashKey j) :=
      fun h => lt_asymm hown h.2
    simp only [if_neg hnot, if_pos hown]
    rcases lt_or_gt_of_ne (hinj.ne hy) with hnext | hnext
    · simp only [if_neg (lt_asymm hnext), if_pos hnext]
      exact .inr ⟨_, .afterSuccessor hnext hown, rfl⟩
    · exact .inr ⟨_, .insert (Ne.symm hself) (.inr ⟨hwrap.le, .inr hnext⟩), if_pos hnext⟩
  · simp only [if_neg hwrap]
    have hlt := lt_of_le_of_ne (not_lt.mp hwrap) (hinj.ne (Ne.symm hself))
    exact .inl ⟨hlt, hin, trivial⟩

theorem Handled.forall_modifiedNode {suc : Nat} {sucNode : Node ι} {r : Graph ι × List (Message ι)}
    (h : Handled hashKey g suc sucNode j x y r) :
    (∀ m ∈ r.2, ∃ z gz, m = .modifiedNode z gz) ∧ r.2.length ≤ 3 := by
  cases h with
  | insert _ _ => simp [insertAfterMe]
  | first _ => simp [firstJoin]
  | afterSuccessor _ _ =>
    unfold insertAfterSuccessor
    split <;> simp

end

end Dht
