import Mathlib.Data.List.Chain
import Mathlib.Data.List.Nodup
import Mathlib.Logic.Function.Basic
import Mathlib.Tactic.Common

/-!
# Intrusive circular queues

The `CIRCLEQ` macros of `sys/queue.h`, written on the link fields they assign.  Queues are indexed
by `ι` and threaded through nodes of type `α` by one entry field, so a node carries a single
`next` and a single `prev` link whichever queue it is on.  A macro that would write a link field
through a queue head yields `none`.

`Represents` says that the links of every queue spell a list.  Under it the macros act on the lists
as `++`, `::` and `erase`.
-/

namespace KwHomework

/-- The target of a link: a queue head or a node. -/
inductive Link (ι α : Type*) where
  | head (queue : ι)
  | elem (node : α)
  deriving DecidableEq

/-- The heads and the link fields of a family of circular queues over one entry field. -/
structure CircleQueue (ι α : Type*) where
  /-- `CIRCLEQ_FIRST` of every head. -/
  first : ι → Link ι α
  /-- `CIRCLEQ_LAST` of every head. -/
  last : ι → Link ι α
  /-- `CIRCLEQ_NEXT` of every node. -/
  next : α → Link ι α
  /-- `CIRCLEQ_PREV` of every node. -/
  prev : α → Link ι α

namespace CircleQueue

open Function

section Rings

variable {ι α : Type*}

/-! ## Uniform links

A head is a node of its own ring: its successor is the first element and its predecessor the
last. -/

/-- The link that follows a head or a node. -/
def succ (q : CircleQueue ι α) : Link ι α → Link ι α
  | .head h => q.first h
  | .elem node => q.next node

/-- The link that precedes a head or a node. -/
def pred (q : CircleQueue ι α) : Link ι α → Link ι α
  | .head h => q.last h
  | .elem node => q.prev node

/-- Two consecutive members of a ring. -/
def Adjacent (q : CircleQueue ι α) (x y : Link ι α) : Prop :=
  q.succ x = y ∧ q.pred y = x

/-- The closed walk from a head through a list of nodes and back. -/
def ring (h : ι) (nodes : List α) : List (Link ι α) :=
  .head h :: (nodes.map .elem ++ [.head h])

/-- The links of every queue spell the given list, and no node is on two queues. -/
structure Represents (q : CircleQueue ι α) (lists : ι → List α) : Prop where
  linked : ∀ h, List.IsChain q.Adjacent (ring h (lists h))
  nodup : ∀ h, (lists h).Nodup
  disjoint : ∀ h h', h ≠ h' → List.Disjoint (lists h) (lists h')

private theorem isChain_congr {q q' : CircleQueue ι α} :
    ∀ {path : List (Link ι α)}, List.IsChain q.Adjacent path →
      (∀ x ∈ path.dropLast, q'.succ x = q.succ x) → (∀ x ∈ path.tail, q'.pred x = q.pred x) →
      List.IsChain q'.Adjacent path
  | [], _, _, _ => .nil
  | [x], _, _, _ => .singleton x
  | x :: y :: path, chain, sameSucc, samePred => by
      rw [List.isChain_cons_cons] at chain ⊢
      refine ⟨⟨?_, ?_⟩, isChain_congr chain.2 ?_ ?_⟩
      · rw [sameSucc x (by simp), chain.1.1]
      · rw [samePred y (by simp), chain.1.2]
      · intro z member
        exact sameSucc z (by simp [member])
      · intro z member
        exact samePred z (List.mem_cons_of_mem y member)

private theorem ends_unique (mid : List (Link ι α)) {front back : List (Link ι α)}
    {p n : Link ι α} (initial : (front ++ p :: (mid ++ n :: back)).dropLast.Nodup)
    (final : (front ++ p :: (mid ++ n :: back)).tail.Nodup) :
    p ∉ front ∧ p ∉ (n :: back).dropLast ∧ n ∉ (front ++ [p]).tail ∧ n ∉ back := by
  have initial' : (front ++ p :: (mid ++ (n :: back).dropLast)).Nodup := by
    have shape : (front ++ p :: (mid ++ n :: back)).dropLast =
        front ++ p :: (mid ++ (n :: back).dropLast) := by
      rw [List.dropLast_append_of_ne_nil (by simp), List.dropLast_cons_of_ne_nil (by simp),
        List.dropLast_append_of_ne_nil (by simp)]
    rwa [shape] at initial
  rw [List.nodup_append] at initial'
  obtain ⟨_, headNodup, separate⟩ := initial'
  have p_notin_front : p ∉ front := fun member => separate p member p (by simp) rfl
  have p_notin_back : p ∉ (n :: back).dropLast := fun member =>
    (List.nodup_cons.mp headNodup).1 (List.mem_append_right mid member)
  have final' : ((front ++ [p]).tail ++ (mid ++ n :: back)).Nodup := by
    cases front <;> simpa using final
  rw [List.nodup_append] at final'
  obtain ⟨_, tailNodup, separate'⟩ := final'
  have n_notin_back : n ∉ back :=
    (List.nodup_cons.mp (List.nodup_append.mp tailNodup).2.1).1
  exact ⟨p_notin_front, p_notin_back, fun member => separate' n member n (by simp) rfl,
    n_notin_back⟩

/-! ## The rings of a represented family -/

@[simp] theorem mem_ring {h : ι} {nodes : List α} {x : Link ι α} :
    x ∈ ring h nodes ↔ x = .head h ∨ ∃ node ∈ nodes, x = .elem node := by
  simp only [ring, List.mem_cons, List.mem_append, List.mem_map, List.not_mem_nil, or_false]
  grind

private theorem ring_dropLast_nodup {h : ι} {nodes : List α} (nodup : nodes.Nodup) :
    (ring h nodes).dropLast.Nodup := by
  rw [ring, List.dropLast_cons_of_ne_nil (by simp), List.dropLast_concat]
  simpa using nodup.map fun _ _ => Link.elem.inj

private theorem ring_tail_nodup {h : ι} {nodes : List α} (nodup : nodes.Nodup) :
    (ring h nodes).tail.Nodup := by
  rw [ring, List.tail_cons, List.nodup_append]
  refine ⟨nodup.map fun _ _ => Link.elem.inj, by simp, ?_⟩
  simp only [List.mem_map, List.mem_singleton]
  rintro _ ⟨node, _, rfl⟩ _ rfl
  simp

private theorem ring_append (h : ι) (front back : List α) (node : α) :
    ring h (front ++ node :: back) =
      (Link.head h :: front.map Link.elem) ++
        Link.elem node :: (back.map Link.elem ++ [Link.head h]) := by
  simp [ring]

namespace Represents

variable {q : CircleQueue ι α} {lists : ι → List α}

/-- The first link of a queue is the first element of its list. -/
theorem first_eq (rep : q.Represents lists) (h : ι) :
    q.first h = ((lists h).head?.map .elem).getD (.head h) := by
  have chain := rep.linked h
  cases nodes : lists h with
  | nil =>
      rw [nodes, ring] at chain
      exact (List.isChain_cons_cons.mp chain).1.1
  | cons node rest =>
      rw [nodes, ring] at chain
      exact (List.isChain_cons_cons.mp chain).1.1

theorem neighbours (rep : q.Represents lists) {h : ι} {node : α} {front back : List α}
    (nodes : lists h = front ++ node :: back) :
    q.next node = (back.head?.map .elem).getD (.head h) ∧
      q.prev node = (front.getLast?.map .elem).getD (.head h) := by
  have chain := rep.linked h
  rw [nodes] at chain
  constructor
  · rw [ring_append] at chain
    have behind := chain.right_of_append
    cases back with
    | nil => exact (List.isChain_cons_cons.mp behind).1.1
    | cons right back => exact (List.isChain_cons_cons.mp behind).1.1
  · rcases List.eq_nil_or_concat front with rfl | ⟨front, left, rfl⟩
    · exact (List.isChain_cons_cons.mp chain).1.2
    · rw [List.concat_eq_append, List.append_assoc, List.singleton_append, ring_append] at chain
      have before := (List.isChain_cons_cons.mp chain.right_of_append).1.2
      simpa [pred] using before

/-- The first element of a queue links to the second. -/
theorem next_eq (rep : q.Represents lists) {h : ι} {node : α} {rest : List α}
    (nodes : lists h = node :: rest) : q.next node = (rest.head?.map .elem).getD (.head h) :=
  (rep.neighbours (show lists h = [] ++ node :: rest from nodes)).1

theorem last_eq (rep : q.Represents lists) (h : ι) :
    q.last h = ((lists h).getLast?.map .elem).getD (.head h) := by
  have chain := rep.linked h
  rcases List.eq_nil_or_concat (lists h) with nodes | ⟨front, node, nodes⟩
  · rw [nodes, ring] at chain
    simpa [nodes, pred] using (List.isChain_cons_cons.mp chain).1.2
  · rw [nodes, List.concat_eq_append, ring_append] at chain
    simpa [nodes, pred] using (List.isChain_cons_cons.mp chain.right_of_append).1.2

/-- A queue is untouched when only links off its ring change. -/
private theorem linked_of_ne {q' : CircleQueue ι α} (rep : q.Represents lists) {h' : ι}
    {touched : List (Link ι α)} (away : ∀ x ∈ touched, x ∉ ring h' (lists h'))
    (sameSucc : ∀ x, x ∉ touched → q'.succ x = q.succ x)
    (samePred : ∀ x, x ∉ touched → q'.pred x = q.pred x) :
    List.IsChain q'.Adjacent (ring h' (lists h')) := by
  refine isChain_congr (rep.linked h') ?_ ?_
  · intro x member
    exact sameSucc x fun bad => away x bad (List.dropLast_subset _ member)
  · intro x member
    exact samePred x fun bad => away x bad (List.mem_of_mem_tail member)

private theorem ring_disjoint (rep : q.Represents lists) {h h' : ι} (ne : h' ≠ h) {x : Link ι α}
    (member : x ∈ ring h (lists h)) : x ∉ ring h' (lists h') := by
  simp only [mem_ring] at member ⊢
  rintro (same | ⟨node', member', same⟩)
  · rcases member with head | ⟨node, _, elem⟩
    · exact ne (Link.head.inj (same.symm.trans head))
    · simp [same] at elem
  · rcases member with head | ⟨node, member, elem⟩
    · simp [same] at head
    · obtain rfl := Link.elem.inj (same.symm.trans elem)
      exact rep.disjoint h' h ne member' member

end Represents

private theorem first_eq_head_iff {q : CircleQueue ι α} {lists : ι → List α}
    (rep : q.Represents lists) (h : ι) : q.first h = .head h ↔ lists h = [] := by
  rw [rep.first_eq]
  cases lists h <;> simp

private theorem last_eq_head_iff {q : CircleQueue ι α} {lists : ι → List α}
    (rep : q.Represents lists) (h : ι) : q.last h = .head h ↔ lists h = [] := by
  rw [rep.last_eq]
  rcases List.eq_nil_or_concat (lists h) with nodes | ⟨front, last, nodes⟩ <;> simp [nodes]

end Rings

variable {ι α : Type*} [DecidableEq ι] [DecidableEq α]

/-! ## The macros -/

/-- Assign the `next` field of the node a link points to. -/
def setNext (q : CircleQueue ι α) (target link : Link ι α) : Option (CircleQueue ι α) :=
  match target with
  | .head _ => none
  | .elem node => some { q with next := update q.next node link }

/-- Assign the `prev` field of the node a link points to. -/
def setPrev (q : CircleQueue ι α) (target link : Link ι α) : Option (CircleQueue ι α) :=
  match target with
  | .head _ => none
  | .elem node => some { q with prev := update q.prev node link }

/-- Assign `CIRCLEQ_FIRST`. -/
def setFirst (q : CircleQueue ι α) (h : ι) (link : Link ι α) : CircleQueue ι α :=
  { q with first := update q.first h link }

/-- Assign `CIRCLEQ_LAST`. -/
def setLast (q : CircleQueue ι α) (h : ι) (link : Link ι α) : CircleQueue ι α :=
  { q with last := update q.last h link }

/-- `CIRCLEQ_INIT`. -/
def init (q : CircleQueue ι α) (h : ι) : CircleQueue ι α :=
  (q.setFirst h (.head h)).setLast h (.head h)

/-- `CIRCLEQ_INSERT_HEAD`. -/
def insertHead (q : CircleQueue ι α) (h : ι) (node : α) : Option (CircleQueue ι α) := do
  let q ← q.setNext (.elem node) (q.first h)
  let q ← q.setPrev (.elem node) (.head h)
  let q ←
    if q.last h = .head h then some (q.setLast h (.elem node))
    else q.setPrev (q.first h) (.elem node)
  return q.setFirst h (.elem node)

/-- `CIRCLEQ_INSERT_TAIL`. -/
def insertTail (q : CircleQueue ι α) (h : ι) (node : α) : Option (CircleQueue ι α) := do
  let q ← q.setNext (.elem node) (.head h)
  let q ← q.setPrev (.elem node) (q.last h)
  let q ←
    if q.first h = .head h then some (q.setFirst h (.elem node))
    else q.setNext (q.last h) (.elem node)
  return q.setLast h (.elem node)

/-- `CIRCLEQ_REMOVE`. -/
def remove (q : CircleQueue ι α) (h : ι) (node : α) : Option (CircleQueue ι α) := do
  let q ←
    if q.next node = .head h then some (q.setLast h (q.prev node))
    else q.setPrev (q.next node) (q.prev node)
  if q.prev node = .head h then some (q.setFirst h (q.next node))
  else q.setNext (q.prev node) (q.next node)

/-- The loop `while (iter != head) { if (p(iter)) return iter; iter = NEXT(iter); }`, returning
the null pointer as `some none`; the outer `none` is a wild dereference or spent fuel. -/
def searchFrom (q : CircleQueue ι α) (h : ι) (p : α → Bool) : Nat → Link ι α → Option (Option α)
  | 0, _ => none
  | _ + 1, .head h' => if h' = h then some none else none
  | fuel + 1, .elem node => if p node then some (some node) else q.searchFrom h p fuel (q.next node)

/-- Search a queue from its first element. -/
def search (q : CircleQueue ι α) (h : ι) (p : α → Bool) (fuel : Nat) : Option (Option α) :=
  q.searchFrom h p fuel (q.first h)

/-- The loop `while (iter != head) { acc = f(acc, iter); iter = NEXT(iter); }`. -/
def foldFrom {σ : Type*} (q : CircleQueue ι α) (h : ι) (f : σ → α → σ) :
    Nat → Link ι α → σ → Option σ
  | 0, _, _ => none
  | _ + 1, .head h', acc => if h' = h then some acc else none
  | fuel + 1, .elem node, acc => q.foldFrom h f fuel (q.next node) (f acc node)

/-- Fold over a queue from its first element. -/
def fold {σ : Type*} (q : CircleQueue ι α) (h : ι) (f : σ → α → σ) (fuel : Nat) (acc : σ) :
    Option σ :=
  q.foldFrom h f fuel (q.first h) acc

/-! ## The macros on the represented lists -/

private theorem isChain_insert {q q' : CircleQueue ι α} {front back : List (Link ι α)}
    {p x n : Link ι α} (chain : List.IsChain q.Adjacent (front ++ p :: n :: back))
    (initial : (front ++ p :: n :: back).dropLast.Nodup)
    (final : (front ++ p :: n :: back).tail.Nodup) (fresh : x ∉ front ++ p :: n :: back)
    (succ_eq : q'.succ = update (update q.succ x n) p x)
    (pred_eq : q'.pred = update (update q.pred x p) n x) :
    List.IsChain q'.Adjacent (front ++ p :: x :: n :: back) := by
  obtain ⟨pFront, pBack, nFront, nBack⟩ := ends_unique [] initial final
  simp only [List.mem_append, List.mem_cons, not_or] at fresh
  obtain ⟨xFront, x_ne_p, x_ne_n, xBack⟩ := fresh
  rw [List.isChain_append_cons_cons] at chain
  rw [List.isChain_append_cons_cons, List.isChain_cons_cons]
  refine ⟨isChain_congr chain.1 ?_ ?_, ?_, ?_, isChain_congr chain.2.2 ?_ ?_⟩
  · intro z member
    rw [List.dropLast_concat] at member
    rw [succ_eq, update_of_ne (by grind), update_of_ne (by grind)]
  · intro z member
    have z_ne_x : z ≠ x := by
      have := List.mem_of_mem_tail member
      grind
    rw [pred_eq, update_of_ne (by grind), update_of_ne z_ne_x]
  · simp [Adjacent, succ_eq, pred_eq, x_ne_n]
  · simp [Adjacent, succ_eq, pred_eq, x_ne_p]
  · intro z member
    have z_ne_x : z ≠ x := by
      have := List.dropLast_subset _ member
      grind
    rw [succ_eq, update_of_ne (by grind), update_of_ne z_ne_x]
  · intro z member
    rw [pred_eq, update_of_ne (by grind), update_of_ne (by grind)]

private theorem isChain_erase {q q' : CircleQueue ι α} {front back : List (Link ι α)}
    {p x n : Link ι α} (chain : List.IsChain q.Adjacent (front ++ p :: x :: n :: back))
    (initial : (front ++ p :: x :: n :: back).dropLast.Nodup)
    (final : (front ++ p :: x :: n :: back).tail.Nodup)
    (succ_eq : q'.succ = update q.succ p n) (pred_eq : q'.pred = update q.pred n p) :
    List.IsChain q'.Adjacent (front ++ p :: n :: back) := by
  obtain ⟨pFront, pBack, nFront, nBack⟩ := ends_unique [x] initial final
  rw [List.isChain_append_cons_cons, List.isChain_cons_cons] at chain
  rw [List.isChain_append_cons_cons]
  refine ⟨isChain_congr chain.1 ?_ ?_, ?_, isChain_congr chain.2.2.2 ?_ ?_⟩
  · intro z member
    rw [List.dropLast_concat] at member
    rw [succ_eq, update_of_ne (by grind)]
  · intro z member
    rw [pred_eq, update_of_ne (by grind)]
  · simp [Adjacent, succ_eq, pred_eq]
  · intro z member
    rw [succ_eq, update_of_ne (by grind)]
  · intro z member
    rw [pred_eq, update_of_ne (by grind)]

/-- Assigning the successor of a link, head or node alike. -/
private def setSucc (q : CircleQueue ι α) : Link ι α → Link ι α → CircleQueue ι α
  | .head h, link => q.setFirst h link
  | .elem node, link => { q with next := update q.next node link }

/-- Assigning the predecessor of a link, head or node alike. -/
private def setPred (q : CircleQueue ι α) : Link ι α → Link ι α → CircleQueue ι α
  | .head h, link => q.setLast h link
  | .elem node, link => { q with prev := update q.prev node link }

@[simp] private theorem succ_setSucc (q : CircleQueue ι α) (x link : Link ι α) :
    (q.setSucc x link).succ = update q.succ x link := by
  funext y
  cases x <;> cases y <;> simp [setSucc, setFirst, succ, update_apply]

@[simp] private theorem pred_setSucc (q : CircleQueue ι α) (x link : Link ι α) :
    (q.setSucc x link).pred = q.pred := by
  funext y
  cases x <;> cases y <;> rfl

@[simp] private theorem pred_setPred (q : CircleQueue ι α) (x link : Link ι α) :
    (q.setPred x link).pred = update q.pred x link := by
  funext y
  cases x <;> cases y <;> simp [setPred, setLast, pred, update_apply]

@[simp] private theorem succ_setPred (q : CircleQueue ι α) (x link : Link ι α) :
    (q.setPred x link).succ = q.succ := by
  funext y
  cases x <;> cases y <;> rfl

omit [DecidableEq α] in
/-- Rewriting one ring around one node leaves every other queue as it was. -/
private theorem Represents.of_splice {q q' : CircleQueue ι α} {lists : ι → List α}
    (rep : q.Represents lists) {h : ι} (node : α) {nodes : List α} (touched : List (Link ι α))
    (away : ∀ h', h' ≠ h → node ∉ lists h') (chain : List.IsChain q'.Adjacent (ring h nodes))
    (nodup : nodes.Nodup)
    (old : ∀ other ∈ nodes, other = node ∨ other ∈ lists h)
    (near : ∀ x ∈ touched, x = .elem node ∨ x ∈ ring h (lists h))
    (sameSucc : ∀ x, x ∉ touched → q'.succ x = q.succ x)
    (samePred : ∀ x, x ∉ touched → q'.pred x = q.pred x) :
    q'.Represents (update lists h nodes) := by
  have separate : ∀ h', h' ≠ h → List.Disjoint nodes (lists h') := by
    intro h' ne other member member'
    rcases old other member with rfl | member
    · exact away h' ne member'
    · exact rep.disjoint h h' ne.symm member member'
  have untouched : ∀ h', h' ≠ h → ∀ x ∈ touched, x ∉ ring h' (lists h') := by
    intro h' ne x member
    rcases near x member with rfl | member
    · simpa using away h' ne
    · exact ring_disjoint rep ne member
  refine ⟨fun h' => ?_, fun h' => ?_, fun h₁ h₂ ne => ?_⟩
  · by_cases same : h' = h
    · subst same
      simpa using chain
    · rw [update_of_ne same]
      exact linked_of_ne rep (untouched h' same) sameSucc samePred
  · by_cases same : h' = h
    · subst same
      simpa using nodup
    · rw [update_of_ne same]
      exact rep.nodup h'
  · by_cases same₁ : h₁ = h
    · subst same₁
      rw [update_self, update_of_ne ne.symm]
      exact separate h₂ ne.symm
    · by_cases same₂ : h₂ = h
      · subst same₂
        rw [update_self, update_of_ne ne]
        exact fun _ member₁ member₂ => separate h₁ same₁ member₂ member₁
      · rw [update_of_ne same₁, update_of_ne same₂]
        exact rep.disjoint h₁ h₂ ne

private theorem insertTail_eq {q : CircleQueue ι α} {lists : ι → List α}
    (rep : q.Represents lists) (h : ι) (node : α) :
    q.insertTail h node = some
      ((((q.setSucc (.elem node) (.head h)).setPred (.elem node) (q.last h)).setSucc (q.last h)
        (.elem node)).setPred (.head h) (.elem node)) := by
  rcases List.eq_nil_or_concat (lists h) with nodes | ⟨front, last, nodes⟩
  · have first := (first_eq_head_iff rep h).mpr nodes
    have last := (last_eq_head_iff rep h).mpr nodes
    simp [insertTail, setNext, setPrev, setSucc, setPred, setFirst, setLast, first, last]
  · have first : q.first h ≠ .head h := by simp [first_eq_head_iff rep, nodes]
    have last : q.last h = .elem last := by simp [rep.last_eq, nodes]
    simp [insertTail, setNext, setPrev, setSucc, setPred, setLast, first, last]

private theorem insertHead_eq {q : CircleQueue ι α} {lists : ι → List α}
    (rep : q.Represents lists) (h : ι) (node : α) :
    q.insertHead h node = some
      ((((q.setSucc (.elem node) (q.first h)).setPred (.elem node) (.head h)).setPred (q.first h)
        (.elem node)).setSucc (.head h) (.elem node)) := by
  cases nodes : lists h with
  | nil =>
      have first := (first_eq_head_iff rep h).mpr nodes
      have last := (last_eq_head_iff rep h).mpr nodes
      simp [insertHead, setNext, setPrev, setSucc, setPred, setFirst, setLast, first, last]
  | cons head rest =>
      have first : q.first h = .elem head := by simp [rep.first_eq, nodes]
      have last : q.last h ≠ .head h := by simp [last_eq_head_iff rep, nodes]
      simp [insertHead, setNext, setPrev, setSucc, setPred, setFirst, first, last]

/-- `CIRCLEQ_INSERT_TAIL` of a node on no queue appends it. -/
theorem Represents.insertTail {q : CircleQueue ι α} {lists : ι → List α}
    (rep : q.Represents lists) (h : ι) {node : α} (fresh : ∀ h', node ∉ lists h') :
    ∃ q', q.insertTail h node = some q' ∧
      q'.Represents (update lists h (lists h ++ [node])) := by
  refine ⟨_, insertTail_eq rep h node, ?_⟩
  obtain ⟨front, before, after⟩ : ∃ front,
      ring h (lists h) = front ++ q.last h :: .head h :: [] ∧
        ring h (lists h ++ [node]) = front ++ q.last h :: .elem node :: .head h :: [] := by
    rcases List.eq_nil_or_concat (lists h) with nodes | ⟨rest, last, nodes⟩
    · exact ⟨[], by simp [ring, rep.last_eq, nodes]⟩
    · exact ⟨.head h :: rest.map .elem, by simp [ring, rep.last_eq, nodes]⟩
  have node_fresh : .elem node ∉ ring h (lists h) := by simpa using fresh h
  have initial := ring_dropLast_nodup (h := h) (rep.nodup h)
  have final := ring_tail_nodup (h := h) (rep.nodup h)
  have chain := rep.linked h
  rw [before] at chain initial final
  refine rep.of_splice node [.elem node, q.last h, .head h]
    (fun h' _ => fresh h') ?_ ?_ ?_ ?_ ?_ ?_
  · rw [after]
    exact isChain_insert chain initial final (before ▸ node_fresh) (by simp) (by simp)
  · simpa [List.nodup_append] using
      ⟨rep.nodup h, fun other member same => fresh h (same ▸ member)⟩
  · intro other member
    simpa [or_comm] using member
  · rw [before]
    grind
  all_goals
    intro x untouched
    simp only [List.mem_cons, not_or] at untouched
    simp [update_of_ne, untouched]

/-- `CIRCLEQ_INSERT_HEAD` of a node on no queue prepends it. -/
theorem Represents.insertHead {q : CircleQueue ι α} {lists : ι → List α}
    (rep : q.Represents lists) (h : ι) {node : α} (fresh : ∀ h', node ∉ lists h') :
    ∃ q', q.insertHead h node = some q' ∧ q'.Represents (update lists h (node :: lists h)) := by
  refine ⟨_, insertHead_eq rep h node, ?_⟩
  obtain ⟨back, before, after⟩ : ∃ back : List (Link ι α),
      ring h (lists h) = ([] : List (Link ι α)) ++ .head h :: q.first h :: back ∧
        ring h (node :: lists h) =
          ([] : List (Link ι α)) ++ .head h :: .elem node :: q.first h :: back := by
    cases nodes : lists h with
    | nil => exact ⟨[], by simp [ring, rep.first_eq, nodes]⟩
    | cons head rest =>
        exact ⟨rest.map .elem ++ [.head h], by simp [ring, rep.first_eq, nodes]⟩
  have node_fresh : .elem node ∉ ring h (lists h) := by simpa using fresh h
  have initial := ring_dropLast_nodup (h := h) (rep.nodup h)
  have final := ring_tail_nodup (h := h) (rep.nodup h)
  have chain := rep.linked h
  rw [before] at chain initial final
  have node_ne_first : q.first h ≠ .elem node := by
    intro same
    rw [before] at node_fresh
    simp [same] at node_fresh
  refine rep.of_splice node [.elem node, .head h, q.first h]
    (fun h' _ => fresh h') ?_ ?_ ?_ ?_ ?_ ?_
  · rw [after]
    exact isChain_insert chain initial final (before ▸ node_fresh) (by simp) (by simp)
  · simpa using ⟨fresh h, rep.nodup h⟩
  · intro other member
    simpa using member
  · rw [before]
    grind
  all_goals
    intro x untouched
    simp only [List.mem_cons, not_or] at untouched
    simp [update_of_ne, untouched]

omit [DecidableEq ι] in
private theorem exists_neighbours (h : ι) {nodes : List α} {node : α} (member : node ∈ nodes) :
    ∃ front p n back,
      ring h nodes = front ++ p :: .elem node :: n :: back ∧
        ring h (nodes.erase node) = front ++ p :: n :: back := by
  obtain ⟨left, right, notin, rfl, erased⟩ := List.exists_erase_eq member
  rw [erased]
  obtain ⟨front, p, front_eq⟩ : ∃ front p, Link.head h :: left.map .elem = front ++ [p] := by
    have := List.dropLast_append_getLast (l := Link.head h :: left.map .elem) (by simp)
    exact ⟨_, _, this.symm⟩
  obtain ⟨n, back, back_eq⟩ : ∃ n back, right.map .elem ++ [Link.head h] = n :: back := by
    cases right <;> simp
  refine ⟨front, p, n, back, ?_, ?_⟩
  · rw [ring_append, front_eq, back_eq]
    simp
  · calc
      ring h (left ++ right) = (.head h :: left.map .elem) ++ (right.map .elem ++ [.head h]) := by
        simp [ring]
      _ = _ := by rw [front_eq, back_eq]; simp

/-- `CIRCLEQ_REMOVE` of a node on the queue erases it. -/
theorem Represents.remove {q : CircleQueue ι α} {lists : ι → List α}
    (rep : q.Represents lists) {h : ι} {node : α} (member : node ∈ lists h) :
    ∃ q', q.remove h node = some q' ∧ q'.Represents (update lists h ((lists h).erase node)) := by
  obtain ⟨front, p, n, back, before, after⟩ := exists_neighbours h member
  have initial := ring_dropLast_nodup (h := h) (rep.nodup h)
  have final := ring_tail_nodup (h := h) (rep.nodup h)
  have chain := rep.linked h
  rw [before] at chain initial final
  obtain ⟨_, ⟨_, pred_eq⟩, adjacent⟩ := List.isChain_append_cons_cons.mp chain
  obtain ⟨⟨succ_eq, _⟩, _⟩ := List.isChain_cons_cons.mp adjacent
  have removed : q.remove h node = some ((q.setPred n p).setSucc p n) := by
    have p_mem : p ∈ ring h (lists h) := by simp [before]
    have n_mem : n ∈ ring h (lists h) := by simp [before]
    rw [mem_ring] at p_mem n_mem
    have n_ne : n ≠ .elem node := by
      rintro rfl
      cases front <;> simp [List.nodup_append] at final
    change q.next node = n at succ_eq
    change q.prev node = p at pred_eq
    rcases n_mem with rfl | ⟨right, _, rfl⟩ <;> rcases p_mem with rfl | ⟨left, _, rfl⟩
    · simp [CircleQueue.remove, setSucc, setPred, setFirst, setLast, succ_eq, pred_eq]
    · simp [CircleQueue.remove, setNext, setSucc, setPred, setLast, succ_eq, pred_eq]
    · have right_ne : node ≠ right := fun same => n_ne (same ▸ rfl)
      simp [CircleQueue.remove, setPrev, setSucc, setPred, setFirst, succ_eq, pred_eq,
        update_of_ne right_ne]
    · have right_ne : node ≠ right := fun same => n_ne (same ▸ rfl)
      simp [CircleQueue.remove, setPrev, setNext, setSucc, setPred, succ_eq, pred_eq,
        update_of_ne right_ne]
  refine ⟨_, removed, rep.of_splice node [p, n] ?_ ?_ ?_ ?_ ?_ ?_ ?_⟩
  · exact fun h' ne => rep.disjoint h h' ne.symm member
  · rw [after]
    exact isChain_erase chain initial final (by simp) (by simp)
  · exact (rep.nodup h).erase node
  · exact fun other member => Or.inr (List.mem_of_mem_erase member)
  · rw [before]
    grind
  all_goals
    intro x untouched
    simp only [List.mem_cons, not_or] at untouched
    simp [update_of_ne, untouched]

/-- `CIRCLEQ_REMOVE` of a node on another queue than the given one unlinks an inner node, and writes
through a head otherwise. -/
theorem Represents.remove_other {q : CircleQueue ι α} {lists : ι → List α}
    (rep : q.Represents lists) {h h' : ι} {node : α} {front back : List α} (other : h ≠ h')
    (nodes : lists h = front ++ node :: back) :
    q.remove h' node = if front = [] ∨ back = [] then none else q.remove h node := by
  obtain ⟨next, prev⟩ := rep.neighbours nodes
  cases back with
  | nil =>
      have next : q.next node = .head h := next
      rw [if_pos (.inr rfl), CircleQueue.remove, next, if_neg fun same =>
        other (Link.head.inj same)]
      rfl
  | cons right back =>
      have next : q.next node = .elem right := next
      rcases List.eq_nil_or_concat front with rfl | ⟨front, left, rfl⟩
      · have prev : q.prev node = .head h := prev
        have apart : right ≠ node := by
          rintro rfl
          have nodup := rep.nodup h
          simp [nodes] at nodup
        rw [if_pos (.inl rfl), CircleQueue.remove, next, if_neg (by simp)]
        simp [setPrev, setNext, prev, apart.symm, other]
      · rw [List.concat_eq_append] at prev ⊢
        have prev : q.prev node = .elem left := by simpa using prev
        have apart : node ≠ right := by
          rintro rfl
          have nodup := rep.nodup h
          simp [nodes, List.nodup_append] at nodup
        rw [if_neg (by simp), CircleQueue.remove, CircleQueue.remove, next, prev]
        simp [setPrev, apart, prev]

omit [DecidableEq ι] [DecidableEq α] in
/-- Initialising every head leaves all queues empty. -/
theorem represents_empty {q : CircleQueue ι α} (first : ∀ h, q.first h = .head h)
    (last : ∀ h, q.last h = .head h) : q.Represents fun _ => [] where
  linked h := by simp [ring, Adjacent, succ, pred, first, last]
  nodup _ := List.nodup_nil
  disjoint _ _ _ := by simp

/-! ## The loops on the represented lists -/

omit [DecidableEq α] in
private theorem searchFrom_eq {q : CircleQueue ι α} {h : ι} {p : α → Bool} :
    ∀ {nodes : List α} {fuel : Nat} {x : Link ι α},
      List.IsChain q.Adjacent (x :: (nodes.map .elem ++ [.head h])) → nodes.length < fuel →
      q.searchFrom h p fuel (q.succ x) = some (nodes.find? p)
  | [], fuel + 1, x, chain, _ => by
      have step := (List.isChain_cons_cons.mp chain).1.1
      simp [step, searchFrom]
  | node :: nodes, fuel + 1, x, chain, enough => by
      rw [List.map_cons, List.cons_append, List.isChain_cons_cons] at chain
      rw [chain.1.1, searchFrom]
      cases found : p node with
      | true => simp [found]
      | false =>
          simpa [found, succ] using
            searchFrom_eq (p := p) chain.2 (Nat.lt_of_succ_lt_succ enough)

omit [DecidableEq α] in
/-- A search with enough fuel returns the first element of the list that passes the test. -/
theorem Represents.search {q : CircleQueue ι α} {lists : ι → List α} (rep : q.Represents lists)
    (h : ι) (p : α → Bool) {fuel : Nat} (enough : (lists h).length < fuel) :
    q.search h p fuel = some ((lists h).find? p) :=
  searchFrom_eq (rep.linked h) enough

omit [DecidableEq α] in
private theorem foldFrom_eq {σ : Type*} {q : CircleQueue ι α} {h : ι} {f : σ → α → σ} :
    ∀ {nodes : List α} {fuel : Nat} {x : Link ι α} {acc : σ},
      List.IsChain q.Adjacent (x :: (nodes.map .elem ++ [.head h])) → nodes.length < fuel →
      q.foldFrom h f fuel (q.succ x) acc = some (nodes.foldl f acc)
  | [], fuel + 1, x, acc, chain, _ => by
      have step := (List.isChain_cons_cons.mp chain).1.1
      simp [step, foldFrom]
  | node :: nodes, fuel + 1, x, acc, chain, enough => by
      rw [List.map_cons, List.cons_append, List.isChain_cons_cons] at chain
      rw [chain.1.1, foldFrom]
      exact foldFrom_eq chain.2 (Nat.lt_of_succ_lt_succ enough)

omit [DecidableEq α] in
/-- A fold with enough fuel visits the list in order. -/
theorem Represents.fold {σ : Type*} {q : CircleQueue ι α} {lists : ι → List α}
    (rep : q.Represents lists) (h : ι) (f : σ → α → σ) {fuel : Nat} (acc : σ)
    (enough : (lists h).length < fuel) :
    q.fold h f fuel acc = some ((lists h).foldl f acc) :=
  foldFrom_eq (rep.linked h) enough

omit [DecidableEq α] in
/-- The links spell one family of lists. -/
theorem Represents.unique {q : CircleQueue ι α} {lists lists' : ι → List α}
    (rep : q.Represents lists) (rep' : q.Represents lists') : lists = lists' := by
  funext h
  have listed := rep.fold h (fun visited node => node :: visited) []
    (show (lists h).length < (lists h).length + (lists' h).length + 1 by omega)
  have listed' := rep'.fold h (fun visited node => node :: visited) []
    (show (lists' h).length < (lists h).length + (lists' h).length + 1 by omega)
  rw [List.foldl_flip_cons_eq_append', List.append_nil] at listed listed'
  exact List.reverse_injective (Option.some.inj (listed.symm.trans listed'))

end CircleQueue
end KwHomework
