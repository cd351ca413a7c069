import Mathlib.Data.List.Nodup
import Mathlib.Data.List.Perm.Subperm
import Mathlib.Data.Nat.Notation
import Mathlib.Logic.Function.Basic
import Mathlib.Tactic.TypeStar

/-!
# Linked lists

A singly linked list in memory: nodes that are allocated one by one, each with the address of the
next, and a variable with the address of the first. A node is removed by a loop that keeps the place
where the address of a node is stored, which is the variable or the field of the node before.

## Main definitions

* `Linked` — the nodes and the variable
* `Linked.push`, `Linked.modify`, `Linked.unlink`, `Linked.loop` — a new first node, a new value,
  the removal of the first node that meets a condition, and a loop over all nodes
* `Linked.Is` — the list of nodes that can be reached, which are all that are allocated

## Main results

* `Linked.Is.push`, `Linked.Is.modify`, `Linked.Is.unlink`, `Linked.Segment.loop` — the operations
  on the list of nodes -/

namespace SingularityShell

namespace Linked

variable {α σ : Type*}

structure Node (α : Type*) where
  value : α
  next : Option ℕ

end Linked

/-- A linked list. An address without a node is not allocated. -/
structure Linked (α : Type*) where
  nodes : ℕ → Option (Linked.Node α) := fun _ => none
  head : Option ℕ := none

namespace Linked

variable {α σ : Type*}

/-- A new node in front. -/
def push (p : ℕ) (a : α) (l : Linked α) : Linked α where
  nodes := Function.update l.nodes p (some ⟨a, l.head⟩)
  head := some p

/-- What is stored in the variable, or in the field of a node. It is nothing where there is no node.
-/
def follow (l : Linked α) : Option ℕ → Option (Option ℕ)
  | none => some l.head
  | some p => (l.nodes p).map (·.next)

/-- Store an address in the variable, or in the field of a node. -/
def store (l : Linked α) (next : Option ℕ) : Option ℕ → Linked α
  | none => { l with head := next }
  | some p => { l with nodes := Function.update l.nodes p ((l.nodes p).map ({ · with next })) }

/-- `free` -/
def free (p : ℕ) (l : Linked α) : Linked α :=
  { l with nodes := Function.update l.nodes p none }

/-- Another value in a node. -/
def modify (p : ℕ) (f : α → α) (l : Linked α) : Linked α :=
  { l with
    nodes := Function.update l.nodes p ((l.nodes p).map fun n => { n with value := f n.value }) }

/-- The loop that removes a node, with the place of the address of the next one. It returns the list
and the node that was removed, and nothing when it used memory that is not allocated or has no
rounds left. -/
def unlink (test : α → Bool) :
    ℕ → Option ℕ → Linked α → Option (Linked α × Option (ℕ × α))
  | 0, _, _ => none
  | rounds + 1, link, l =>
    match l.follow link with
    | none => none
    | some none => some (l, none)
    | some (some p) =>
      match l.nodes p with
      | none => none
      | some node =>
        if test node.value then some ((l.store node.next link).free p, some (p, node.value))
        else unlink test rounds (some p) l

/-- A loop over the nodes, which reads the next address after its body. -/
def loop (next : σ → ℕ → Option (Option ℕ)) (body : ℕ → σ → σ) : ℕ → Option ℕ → σ → Option σ
  | _, none, s => some s
  | 0, some _, _ => none
  | rounds + 1, some p, s =>
    match next (body p s) p with
    | none => none
    | some q => loop next body rounds q (body p s)

/-- The nodes on the way from one address to another. -/
inductive Segment (nodes : ℕ → Option (Node α)) : Option ℕ → List (ℕ × α) → Option ℕ → Prop
  | nil (p : Option ℕ) : Segment nodes p [] p
  | cons {p : ℕ} {a : α} {next q : Option ℕ} {list : List (ℕ × α)} :
    nodes p = some ⟨a, next⟩ → Segment nodes next list q → Segment nodes (some p) ((p, a) :: list) q

/-- The list of all nodes that are allocated, in the order in which they are reached. -/
structure Is (l : Linked α) (list : List (ℕ × α)) : Prop where
  reached : Segment l.nodes l.head list none
  all : ∀ p node, l.nodes p = some node → p ∈ list.map Prod.fst

@[simp] theorem free_head (p : ℕ) (l : Linked α) : (l.free p).head = l.head := rfl

@[simp] theorem free_nodes_self (p : ℕ) (l : Linked α) : (l.free p).nodes p = none :=
  Function.update_self ..

theorem free_nodes_of_ne {p i : ℕ} (h : p ≠ i) (l : Linked α) :
    (l.free i).nodes p = l.nodes p := Function.update_of_ne h _ _

theorem store_nodes_of_ne {link : Option ℕ} {p : ℕ} (h : link ≠ some p) (l : Linked α)
    (next : Option ℕ) : (l.store next link).nodes p = l.nodes p := by
  cases link with
  | none => rfl
  | some i => exact Function.update_of_ne (fun heq => h (congrArg some heq.symm)) _ _

theorem store_nodes_self {i : ℕ} {l : Linked α} {node : Node α} (h : l.nodes i = some node)
    (next : Option ℕ) : (l.store next (some i)).nodes i = some { node with next } := by
  rw [store, h]
  exact Function.update_self ..

theorem store_nodes_none {p : ℕ} {l : Linked α} (h : l.nodes p = none) (next link : Option ℕ) :
    (l.store next link).nodes p = none := by
  by_cases hlink : link = some p
  · rw [hlink, store, h]
    exact Function.update_self ..
  · exact (store_nodes_of_ne hlink l next).trans h

theorem modify_nodes_self (i : ℕ) (f : α → α) (l : Linked α) :
    (l.modify i f).nodes i = (l.nodes i).map fun n => { n with value := f n.value } :=
  Function.update_self ..

theorem modify_nodes_of_ne {p i : ℕ} (h : p ≠ i) (f : α → α) (l : Linked α) :
    (l.modify i f).nodes p = l.nodes p := Function.update_of_ne h _ _

@[simp] theorem store_some_head (i : ℕ) (l : Linked α) (next : Option ℕ) :
    (l.store next (some i)).head = l.head := rfl

/-! ### Segments -/

variable {nodes nodes' : ℕ → Option (Node α)} {p q r : Option ℕ} {list list' : List (ℕ × α)}

theorem Segment.append (h : Segment nodes p list q) (h' : Segment nodes q list' r) :
    Segment nodes p (list ++ list') r := by
  induction h with
  | nil p => exact h'
  | cons hnode _ ih => exact .cons hnode (ih h')

theorem segment_nil_iff : Segment nodes p [] q ↔ p = q := by
  constructor
  · intro h
    cases h
    rfl
  · rintro rfl
    exact .nil p

theorem segment_cons_iff {i : ℕ} {a : α} : Segment nodes p ((i, a) :: list) q ↔
    p = some i ∧ ∃ next, nodes i = some ⟨a, next⟩ ∧ Segment nodes next list q := by
  constructor
  · intro h
    cases h with
    | cons hnode htail => exact ⟨rfl, _, hnode, htail⟩
  · rintro ⟨rfl, next, hnode, htail⟩
    exact .cons hnode htail

theorem Segment.of_append (h : Segment nodes p (list ++ list') r) :
    ∃ q, Segment nodes p list q ∧ Segment nodes q list' r := by
  induction list generalizing p with
  | nil => exact ⟨p, .nil p, h⟩
  | cons node list ih =>
    cases h with
    | cons hnode htail =>
      obtain ⟨q, hleft, hright⟩ := ih htail
      exact ⟨q, .cons hnode hleft, hright⟩

/-- A segment does not depend on other nodes. -/
theorem Segment.congr (h : Segment nodes p list q)
    (heq : ∀ p ∈ list.map Prod.fst, nodes' p = nodes p) : Segment nodes' p list q := by
  induction h with
  | nil p => exact .nil p
  | cons hnode _ ih =>
    exact .cons ((heq _ List.mem_cons_self).trans hnode)
      (ih fun p hp => heq p (List.mem_cons_of_mem _ hp))

theorem Segment.node_of_mem (h : Segment nodes p list q) {i : ℕ} {a : α} (hmem : (i, a) ∈ list) :
    ∃ next, nodes i = some ⟨a, next⟩ := by
  induction h with
  | nil p => cases hmem
  | @cons p b next q list hnode _ ih =>
    rcases List.mem_cons.1 hmem with heq | hmem
    · obtain ⟨rfl, rfl⟩ := Prod.mk.inj heq
      exact ⟨next, hnode⟩
    · exact ih hmem

/-- There is one way from an address to the end. -/
theorem Segment.functional (h : Segment nodes p list none) (h' : Segment nodes p list' none) :
    list = list' := by
  induction list generalizing p list' with
  | nil =>
    cases h
    cases h'
    rfl
  | cons node list ih =>
    cases h with
    | cons hnode htail =>
      cases h' with
      | cons hnode' htail' =>
        obtain ⟨rfl, rfl⟩ := Node.mk.inj (Option.some.inj (hnode.symm.trans hnode'))
        rw [ih htail htail']

/-- The way to the end reaches each node once. -/
theorem Segment.nodup (h : Segment nodes p list none) : (list.map Prod.fst).Nodup := by
  induction list generalizing p with
  | nil => exact List.nodup_nil
  | cons node list ih =>
    cases h with
    | @cons i a next _ _ hnode htail =>
      refine List.nodup_cons.2 ⟨fun hmem => ?_, ih htail⟩
      -- From the node on, the list would have itself as a proper end.
      obtain ⟨⟨i', b⟩, hin, rfl⟩ := List.mem_map.1 hmem
      obtain ⟨before, after, rfl⟩ := List.append_of_mem hin
      obtain ⟨q, -, hagain⟩ := htail.of_append
      have hq : q = some i' := by cases hagain; rfl
      subst hq
      have heq := (Segment.cons hnode htail).functional hagain
      have hlength := congrArg List.length heq
      simp at hlength
      omega

/-! ### The operations -/

variable {l : Linked α}

theorem is_empty : Is ({} : Linked α) [] where
  reached := .nil none
  all := nofun

theorem Is.nodup (h : l.Is list) : (list.map Prod.fst).Nodup := h.reached.nodup

theorem Is.value_unique (h : l.Is list) {i : ℕ} {a b : α} (ha : (i, a) ∈ list)
    (hb : (i, b) ∈ list) : a = b :=
  congrArg Prod.snd (List.inj_on_of_nodup_map h.nodup ha hb rfl)

/-- The first node that meets a condition is removed by its address. -/
theorem Is.eraseP_eq_filter (h : l.Is list) {test : ℕ × α → Bool} {i : ℕ} {a : α}
    (hfind : list.find? test = some (i, a)) : list.eraseP test = list.filter (·.1 ≠ i) := by
  have hnodup := h.nodup
  clear h
  induction list with
  | nil => cases hfind
  | cons node list ih =>
    obtain ⟨hnot, hnodup⟩ := List.nodup_cons.1 hnodup
    by_cases hnode : test node = true
    · rw [List.find?_cons_of_pos hnode] at hfind
      have hi : node.1 = i := congrArg Prod.fst (Option.some.inj hfind)
      rw [List.eraseP_cons_of_pos hnode, List.filter_cons_of_neg (by simpa using hi)]
      refine (List.filter_eq_self.2 fun other hother => ?_).symm
      have hne : other.1 ≠ i := fun heq =>
        hnot (List.mem_map.2 ⟨other, hother, heq.trans hi.symm⟩)
      exact decide_eq_true hne
    · rw [List.find?_cons_of_neg hnode] at hfind
      have hne : node.1 ≠ i := fun heq =>
        hnot (List.mem_map.2 ⟨_, List.mem_of_find?_eq_some hfind, heq.symm⟩)
      rw [List.eraseP_cons_of_neg hnode, List.filter_cons_of_pos (by simpa using hne),
        ih hfind hnodup]

/-- There are no more nodes than addresses. -/
theorem Is.length_le (h : l.Is list) {n : ℕ} (hlt : ∀ p ∈ list.map Prod.fst, p < n) :
    list.length ≤ n := by
  have hsub : (list.map Prod.fst).Subperm (List.range n) :=
    List.subperm_of_subset h.nodup fun p hp => List.mem_range.2 (hlt p hp)
  have hlength := hsub.length_le
  rwa [List.length_map, List.length_range] at hlength

/-- The value of a node is found in the list. -/
theorem Is.mem_of_node (h : l.Is list) {i : ℕ} {node : Node α} (hnode : l.nodes i = some node) :
    (i, node.value) ∈ list := by
  obtain ⟨⟨i', a⟩, hmem, rfl⟩ := List.mem_map.1 (h.all i node hnode)
  obtain ⟨next, hi⟩ := h.reached.node_of_mem hmem
  obtain rfl := Option.some.inj (hi.symm.trans hnode)
  exact hmem

theorem Is.node_of_mem (h : l.Is list) {i : ℕ} {a : α} (hmem : (i, a) ∈ list) :
    ∃ next, l.nodes i = some ⟨a, next⟩ := h.reached.node_of_mem hmem

/-- A new node is put in front. -/
theorem Is.push (h : l.Is list) {i : ℕ} (hfree : l.nodes i = none) (a : α) :
    (push i a l).Is ((i, a) :: list) where
  reached := by
    refine .cons (Function.update_self ..) (h.reached.congr fun p hp => ?_)
    refine Function.update_of_ne (fun heq => ?_) _ _
    obtain ⟨⟨p', b⟩, hmem, rfl⟩ := List.mem_map.1 hp
    obtain ⟨next, hnode⟩ := h.node_of_mem hmem
    rw [show p' = i from heq, hfree] at hnode
    cases hnode
  all p node hp := by
    rw [List.map_cons, List.mem_cons]
    by_cases heq : p = i
    · exact Or.inl heq
    · exact Or.inr (h.all p node ((Function.update_of_ne heq _ _).symm.trans hp))

theorem Segment.modify (h : Segment l.nodes p list q) (i : ℕ) (f : α → α) :
    Segment (l.modify i f).nodes p
      (list.map fun node => if node.1 = i then (node.1, f node.2) else node) q := by
  induction h with
  | nil p => exact .nil p
  | @cons j a next q list hnode _ ih =>
    rw [List.map_cons]
    by_cases hj : j = i
    · rw [if_pos hj]
      refine .cons ?_ ih
      rw [hj, modify_nodes_self, ← hj, hnode]
      rfl
    · rw [if_neg hj]
      exact .cons ((modify_nodes_of_ne hj f l).trans hnode) ih

/-- A node gets another value. -/
theorem Is.modify (h : l.Is list) (i : ℕ) (f : α → α) :
    (l.modify i f).Is (list.map fun node => if node.1 = i then (node.1, f node.2) else node) where
  reached := h.reached.modify i f
  all p node hp := by
    have hfst : (list.map fun node => if node.1 = i then (node.1, f node.2) else node).map
        Prod.fst = list.map Prod.fst := by
      rw [List.map_map]
      refine List.map_congr_left fun node _ => ?_
      rw [Function.comp_apply]
      split_ifs <;> rfl
    rw [hfst]
    by_cases hpi : p = i
    · rcases hold : l.nodes p with _ | old
      · rw [hpi, modify_nodes_self, ← hpi, hold] at hp
        cases hp
      · exact h.all p old hold
    · exact h.all p node ((modify_nodes_of_ne hpi f l).symm.trans hp)

/-- The last node before a place in the list. -/
def lastOf (before : List (ℕ × α)) : Option ℕ := before.getLast?.map Prod.fst

/-- What is stored at the place behind some nodes. -/
theorem Is.follow {before after : List (ℕ × α)} (h : l.Is (before ++ after)) :
    l.follow (lastOf before) = some (after.head?.map Prod.fst) := by
  obtain ⟨q, hbefore, hafter⟩ := h.reached.of_append
  have hq : q = after.head?.map Prod.fst := by
    cases hafter with
    | nil => rfl
    | cons => rfl
  rcases List.eq_nil_or_concat' before with rfl | ⟨before, ⟨i, a⟩, rfl⟩
  · exact congrArg some ((segment_nil_iff.1 hbefore).trans hq)
  · obtain ⟨q', -, hlast⟩ := hbefore.of_append
    obtain ⟨-, next, hnode, hnext⟩ := segment_cons_iff.1 hlast
    rw [lastOf, List.getLast?_concat, Option.map_some, Linked.follow, hnode, ← hq,
      ← segment_nil_iff.1 hnext]
    rfl

/-- The nodes that are left when one is freed and the others have no other values. -/
theorem Is.of_segment {l' : Linked α} {before after : List (ℕ × α)} {i : ℕ} {a : α}
    (h : l.Is (before ++ (i, a) :: after))
    (hreached : Segment l'.nodes l'.head (before ++ after) none)
    (hfreed : l'.nodes i = none) (hkept : ∀ p, l.nodes p = none → l'.nodes p = none) :
    l'.Is (before ++ after) where
  reached := hreached
  all p node hp := by
    rcases hold : l.nodes p with _ | old
    · exact absurd ((hkept p hold).symm.trans hp) (Option.some_ne_none _).symm
    · have hmem := h.all p old hold
      rw [List.map_append, List.map_cons, List.mem_append, List.mem_cons] at hmem
      rw [List.map_append, List.mem_append]
      refine hmem.imp_right fun hmem => hmem.resolve_left fun heq => ?_
      rw [show p = i from heq, hfreed] at hp
      cases hp

/-- A node that is cut out, and freed. -/
theorem Is.cut {before after : List (ℕ × α)} {i : ℕ} {a : α} {next : Option ℕ}
    (h : l.Is (before ++ (i, a) :: after)) (hi : l.nodes i = some ⟨a, next⟩) :
    ((l.store next (lastOf before)).free i).Is (before ++ after) := by
  have hnodup := h.nodup
  rw [List.map_append, List.map_cons, List.nodup_append, List.nodup_cons] at hnodup
  obtain ⟨-, ⟨hafterNot, -⟩, hdisjoint⟩ := hnodup
  obtain ⟨q, hbefore, hrest⟩ := h.reached.of_append
  obtain ⟨rfl, next', hnode, hafter⟩ := segment_cons_iff.1 hrest
  obtain ⟨-, rfl⟩ := Node.mk.inj (Option.some.inj (hi.symm.trans hnode))
  have hafterNe : ∀ p ∈ after.map Prod.fst, p ≠ i := fun p hp heq => hafterNot (heq ▸ hp)
  have hbeforeNe : ∀ p ∈ before.map Prod.fst, p ≠ i := fun p hp heq =>
    hdisjoint p hp i List.mem_cons_self heq
  have hkept : ∀ p, l.nodes p = none →
      ((l.store next (lastOf before)).free i).nodes p = none := by
    intro p hp
    by_cases hpi : p = i
    · rw [hpi, free_nodes_self]
    · rw [free_nodes_of_ne hpi, store_nodes_none hp]
  refine h.of_segment ?_ (free_nodes_self i _) hkept
  rcases List.eq_nil_or_concat' before with rfl | ⟨before, ⟨j, b⟩, rfl⟩
  · exact hafter.congr fun p hp => free_nodes_of_ne (hafterNe p hp) _
  · obtain ⟨q, hfirst, hlast⟩ := hbefore.of_append
    obtain ⟨rfl, next', hj, hnext⟩ := segment_cons_iff.1 hlast
    obtain rfl := segment_nil_iff.1 hnext
    have hji : j ≠ i := hbeforeNe j (by simp)
    have hnodup' := h.nodup
    rw [List.map_append, List.map_append, List.append_assoc, List.nodup_append] at hnodup'
    obtain ⟨-, hj', hfirstNe⟩ := hnodup'
    have hlastOf : lastOf (before ++ [(j, b)]) = some j := by
      rw [lastOf, List.getLast?_concat, Option.map_some]
    have hother : ∀ p, p ≠ i → p ≠ j →
        ((l.store next (some j)).free i).nodes p = l.nodes p := fun p hpi hpj => by
      rw [free_nodes_of_ne hpi, store_nodes_of_ne fun heq => hpj (Option.some.inj heq).symm]
    rw [hlastOf, free_head, store_some_head]
    refine (Segment.append (hfirst.congr fun p hp => ?_) (.cons ?_ (.nil next))).append
      (hafter.congr fun p hp => ?_)
    · refine hother p (hbeforeNe p ?_) fun heq => ?_
      · rw [List.map_append]
        exact List.mem_append_left _ hp
      · exact hfirstNe p hp j (by simp) heq
    · rw [free_nodes_of_ne hji, store_nodes_self hj]
    · refine hother p (hafterNe p hp) fun heq => ?_
      rw [List.map_cons, List.map_nil, List.singleton_append, List.nodup_cons] at hj'
      exact hj'.1 (List.mem_cons_of_mem _ (heq ▸ hp))

/-- **The loop that removes a node** removes the first that meets the condition. -/
theorem Is.unlink_from (test : α → Bool) {rounds : ℕ} (before after : List (ℕ × α))
    (h : l.Is (before ++ after)) (hrounds : after.length < rounds) :
    match after.find? fun node => test node.2 with
    | none => unlink test rounds (lastOf before) l = some (l, none)
    | some node => ∃ l', unlink test rounds (lastOf before) l = some (l', some node) ∧
        l'.Is (before ++ after.eraseP fun node => test node.2) := by
  induction rounds generalizing before after with
  | zero => omega
  | succ rounds ih =>
    rw [unlink, h.follow]
    rcases after with _ | ⟨⟨i, a⟩, after⟩
    · rfl
    · obtain ⟨next, hi⟩ := h.node_of_mem (List.mem_append_right before List.mem_cons_self)
      rw [List.head?_cons, Option.map_some]
      dsimp only
      rw [hi]
      dsimp only
      by_cases ha : test a = true
      · rw [List.find?_cons_of_pos (p := fun node : ℕ × α => test node.2) ha,
          List.eraseP_cons_of_pos (p := fun node : ℕ × α => test node.2) ha, if_pos ha]
        exact ⟨_, rfl, h.cut hi⟩
      · rw [List.find?_cons_of_neg (p := fun node : ℕ × α => test node.2) ha,
          List.eraseP_cons_of_neg (p := fun node : ℕ × α => test node.2) ha, if_neg ha]
        have hlast : lastOf (before ++ [(i, a)]) = some i := by
          rw [lastOf, List.getLast?_concat, Option.map_some]
        have happend : before ++ (i, a) :: after = before ++ [(i, a)] ++ after :=
          List.append_cons ..
        have hrest := ih (before ++ [(i, a)]) after (happend ▸ h)
          (by rw [List.length_cons] at hrounds; omega)
        rw [hlast] at hrest
        rw [List.append_cons]
        exact hrest

/-- The removal, from the variable on. -/
theorem Is.unlink (h : l.Is list) (test : α → Bool) {rounds : ℕ} (hrounds : list.length < rounds) :
    match list.find? fun node => test node.2 with
    | none => unlink test rounds none l = some (l, none)
    | some node => ∃ l', unlink test rounds none l = some (l', some node) ∧
        l'.Is (list.eraseP fun node => test node.2) :=
  h.unlink_from test [] list hrounds

/-- **A loop over all nodes** has its body run for each of them in order, when the body leaves the
addresses in the nodes as they are. -/
theorem Segment.loop (h : Segment nodes p list none) (next : σ → ℕ → Option (Option ℕ))
    (body : ℕ → σ → σ) {rounds : ℕ} (hrounds : list.length ≤ rounds) {P : σ → Prop}
    (hbody : ∀ i node s, nodes i = some node → P s → P (body i s))
    (hnext : ∀ i node s, nodes i = some node → P s → next (body i s) i = some node.next) {s : σ}
    (hs : P s) :
    Linked.loop next body rounds p s =
      some ((list.map Prod.fst).foldl (fun s i => body i s) s) := by
  induction list generalizing p rounds s with
  | nil =>
    obtain rfl := segment_nil_iff.1 h
    rw [Linked.loop]
    rfl
  | cons node list ih =>
    obtain ⟨rfl, q, hnode, htail⟩ := segment_cons_iff.1 h
    rcases rounds with _ | rounds
    · exact absurd hrounds (Nat.not_succ_le_zero _)
    · rw [Linked.loop, hnext node.1 _ s hnode hs]
      exact ih htail (Nat.le_of_succ_le_succ hrounds) (hbody node.1 _ s hnode hs)

end Linked

end SingularityShell
