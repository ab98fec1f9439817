import Mathlib.Logic.Relation
import Mathlib.Data.List.Basic
import Mathlib.Algebra.BigOperators.Intervals
import Mathlib.Algebra.Order.BigOperators.Group.Finset
import Mathlib.Data.List.Chain
import Mathlib.Tactic.Ring
import Mathlib.Tactic.Linarith

/-!
# Strongly connected components

`components` of `pod/membership_view.rs`: the strongly connected components of a graph given by
adjacency lists, each after every component it reaches. The source keeps its own work stack, so
that a store of any size fits any stack; a turn of its inner loop is `Tarjan.step` here.

## Main definitions

* `Tarjan` — the arrays, the two stacks and the result of the search.
* `Tarjan.step` — one turn of the inner loop.
* `components` — the search from every node.

## Main results

* `Tarjan.Inv` — what holds after every turn; `Tarjan.Inv.step`, `Tarjan.Inv.visit` — one turn
  and the whole inner loop keep it.
* `mem_components` — every node lies in some component.
* `components_mutual_iff` — two nodes lie in one component exactly when each reaches the other.
* `components_closed` — a component reaches only itself and the components before it.
* `components_stronglyConnected` — all of it, and that the components part the nodes.

## Design

A node is *open* while the search is inside it, so while it lies on the work stack. Two facts tie
the open nodes to the stack: an open node reaches every node above it on the stack, and every node
on the stack reaches an open node at or below it. The low link is then pinned from both sides: it
is the index of a node on the stack that is reached, and no edge already looked at leads from at or
above an open node to a node on the stack below every low link of the open nodes from there up.
-/

namespace MeePdn

open Relation

/-! ## The search -/

/-- The state of the search; `index` is `None` for `UNVISITED`, and the heads of the three stacks
are their tops. -/
structure Tarjan where
  index : ℕ → Option ℕ
  low : ℕ → ℕ
  onStack : ℕ → Bool
  stack : List ℕ
  next : ℕ
  out : List (List ℕ)
  /-- The nodes the search is inside, each with the next edge it looks at. -/
  work : List (ℕ × ℕ)

namespace Tarjan

variable (adjacency : List (List ℕ))

/-- `adjacency[node]`. -/
def succs (node : ℕ) : List ℕ := adjacency.getD node []

/-- Number a node and put it on both stacks. -/
def enter (t : Tarjan) (node : ℕ) : Tarjan :=
  { t with
    index := Function.update t.index node (some t.next)
    low := Function.update t.low node t.next
    next := t.next + 1
    stack := node :: t.stack
    onStack := Function.update t.onStack node true
    work := (node, 0) :: t.work }

/-- The nodes down to `node` off the stack, and the rest of it. -/
def popComponent (node : ℕ) : List ℕ → List ℕ × List ℕ
  | [] => ([], [])
  | member :: stack =>
    if member = node then ([member], stack)
    else ((member :: (popComponent node stack).1), (popComponent node stack).2)

/-- The low links once a node handed its own to its parent, the next node on the work stack. -/
def handedLow (t : Tarjan) (node : ℕ) : List (ℕ × ℕ) → ℕ → ℕ
  | (parent, _) :: _ => Function.update t.low parent (min (t.low parent) (t.low node))
  | [] => t.low

/-- Leave a node all of whose edges are looked at: its parent takes over its low link, and a node
that is its own low link ends a component. -/
def leave (t : Tarjan) (node : ℕ) (rest : List (ℕ × ℕ)) : Tarjan :=
  let t := { t with work := rest, low := t.handedLow node rest }
  if some (t.low node) = t.index node then
    let popped := popComponent node t.stack
    { t with
      stack := popped.2
      onStack := fun member => if member ∈ popped.1 then false else t.onStack member
      out := t.out ++ [popped.1] }
  else t

/-- One turn of the inner loop; `none` once the search is inside no node. -/
def step (t : Tarjan) : Option Tarjan :=
  match t.work with
  | [] => none
  | (node, edge) :: rest =>
    match (succs adjacency node)[edge]? with
    | some succ =>
      let t := { t with work := (node, edge + 1) :: rest }
      match t.index succ with
      | none => some (t.enter succ)
      | some index =>
        if t.onStack succ then
          some { t with low := Function.update t.low node (min (t.low node) index) }
        else some t
    | none => some (t.leave node rest)

/-- The inner loop. Each turn looks at one more edge or leaves one more node, so edges and nodes
bound the turns. -/
def visit : ℕ → Tarjan → Tarjan
  | 0, t => t
  | fuel + 1, t =>
    match t.step adjacency with
    | none => t
    | some t => visit fuel t

/-- One turn of the loop over the roots. -/
def root (t : Tarjan) (node : ℕ) : Tarjan :=
  match t.index node with
  | some _ => t
  | none => visit adjacency ((adjacency.map List.length).sum + adjacency.length) (t.enter node)

/-- The search before its first root. -/
def start : Tarjan :=
  { index := fun _ => none, low := fun _ => 0, onStack := fun _ => false, stack := [], next := 0,
    out := [], work := [] }

end Tarjan

/-- `components`: strongly connected components, each after every component it reaches. -/
def components (adjacency : List (List ℕ)) : List (List ℕ) :=
  ((List.range adjacency.length).foldl (Tarjan.root adjacency) Tarjan.start).out

/-! ## What holds after every turn -/

namespace Tarjan

variable (adjacency : List (List ℕ))

/-- An edge of the graph. -/
def Edge (u v : ℕ) : Prop := v ∈ succs adjacency u

/-- A path of the graph. -/
abbrev Reach : ℕ → ℕ → Prop := ReflTransGen (Edge adjacency)

/-- A visited node's number. -/
def idx (t : Tarjan) (v : ℕ) : ℕ := (t.index v).getD 0

/-- The nodes the search is inside, the innermost first. -/
def opened (t : Tarjan) : List ℕ := t.work.map Prod.fst

/-- A node of a component already found. -/
def Done (t : Tarjan) (v : ℕ) : Prop := (t.index v).isSome ∧ v ∉ t.stack

/-- An edge already looked at: any edge of a node that is left, and those before the next edge of
an open one. -/
def Looked (t : Tarjan) (u w : ℕ) : Prop :=
  ∃ j, (succs adjacency u)[j]? = some w ∧ ∀ e, (u, e) ∈ t.work → j < e

/-- The invariant of the search. -/
structure Inv (t : Tarjan) : Prop where
  visited_lt : ∀ v, (t.index v).isSome → v < adjacency.length
  idx_lt : ∀ v, (t.index v).isSome → t.idx v < t.next
  stack_visited : ∀ v ∈ t.stack, (t.index v).isSome
  onStack_iff : ∀ v, t.onStack v = true ↔ v ∈ t.stack
  stack_sorted : t.stack.Pairwise fun u v => t.idx v < t.idx u
  opened_sublist : t.opened.Sublist t.stack
  path : t.work.IsChain fun a b => Edge adjacency b.1 a.1
  looked_visited : ∀ u ∈ t.stack, ∀ w, Looked adjacency t u w → (t.index w).isSome
  reaches_up : ∀ g ∈ t.opened, ∀ u ∈ t.stack, t.idx g ≤ t.idx u → Reach adjacency g u
  reaches_open : ∀ u ∈ t.stack, ∃ g ∈ t.opened, t.idx g ≤ t.idx u ∧ Reach adjacency u g
  low_le : ∀ g ∈ t.opened, t.low g ≤ t.idx g
  low_reached : ∀ g ∈ t.opened, ∃ w ∈ t.stack, t.idx w = t.low g ∧ Reach adjacency g w
  low_bound : ∀ v ∈ t.opened, ∀ u ∈ t.stack, t.idx v ≤ t.idx u → ∀ w ∈ t.stack,
    Looked adjacency t u w → ∃ g ∈ t.opened, t.idx v ≤ t.idx g ∧ t.low g ≤ t.idx w
  done_closed : ∀ v, Done t v → ∀ w, Edge adjacency v w → Done t w
  done_iff : ∀ v, Done t v ↔ v ∈ t.out.flatten
  out_nodup : t.out.flatten.Nodup
  out_mutual : ∀ C ∈ t.out, ∀ u ∈ C, ∀ v ∈ C, Reach adjacency u v
  out_closed : ∀ A C B, t.out = A ++ C :: B → ∀ u ∈ C, ∀ w, Reach adjacency u w →
    w ∈ C ∨ w ∈ A.flatten
  out_ne : [] ∉ t.out

variable {adjacency} {t : Tarjan}

lemma idx_enter_of_ne (t : Tarjan) {node v : ℕ} (hne : v ≠ node) :
    (t.enter node).idx v = t.idx v := by
  simp [enter, idx, hne]

lemma idx_enter_self (t : Tarjan) (node : ℕ) : (t.enter node).idx node = t.next := by
  simp [enter, idx]

lemma handedLow_le (t : Tarjan) (node : ℕ) (rest : List (ℕ × ℕ)) (g : ℕ) :
    handedLow t node rest g ≤ t.low g := by
  rcases rest with _ | ⟨⟨parent, e⟩, rest⟩
  · exact le_rfl
  · rcases eq_or_ne g parent with rfl | hne
    · simp [handedLow]
    · simp [handedLow, hne]

lemma popComponent_eq (node : ℕ) (stack : List ℕ) (hmem : node ∈ stack) :
    ∃ pre rest, stack = pre ++ node :: rest ∧ popComponent node stack = (pre ++ [node], rest) := by
  induction stack with
  | nil => simp at hmem
  | cons member stack ih =>
    rcases eq_or_ne member node with rfl | hne
    · exact ⟨[], stack, rfl, by simp [popComponent]⟩
    · obtain ⟨pre, rest, hst, hpop⟩ := ih ((List.mem_cons.mp hmem).resolve_left (Ne.symm hne))
      exact ⟨member :: pre, rest, by simp [hst], by simp [popComponent, hne, hpop]⟩

lemma opened_top {node edge : ℕ} {rest : List (ℕ × ℕ)} (hw : t.work = (node, edge) :: rest) :
    node ∈ t.opened := by
  simp [opened, hw]

namespace Inv

variable (h : Inv adjacency t)

include h

lemma idx_inj {u v : ℕ} (hu : u ∈ t.stack) (hv : v ∈ t.stack)
    (huv : t.idx u = t.idx v) : u = v := by
  by_contra hne
  have hsymm : Std.Symm fun a b => t.idx a ≠ t.idx b := ⟨fun _ _ hab => hab.symm⟩
  have hdistinct : t.stack.Pairwise fun a b => t.idx a ≠ t.idx b :=
    h.stack_sorted.imp fun hlt => hlt.ne'
  exact hdistinct.forall hu hv hne huv

lemma stack_nodup : t.stack.Nodup :=
  h.stack_sorted.imp fun hlt heq => by simp [heq] at hlt

lemma opened_nodup : t.opened.Nodup :=
  h.opened_sublist.nodup h.stack_nodup

lemma opened_mem {g : ℕ} (hg : g ∈ t.opened) : g ∈ t.stack :=
  h.opened_sublist.subset hg

/-! ### Entering a node -/

/-- **Entering a node** that every open node reaches keeps the invariant.

**Proof sketch.** The new node takes the greatest number and the top of both stacks, so it is
reached by every open node and reaches itself. None of its edges is looked at yet, and the one edge
that may lead to it, the edge it is entered by, is bounded by its own low link. -/
lemma enter_inv {node : ℕ} (work : List (ℕ × ℕ))
    (hfresh : t.index node = none) (hlt : node < adjacency.length)
    (hopen : work.map Prod.fst = t.opened)
    (hpath : ((node, 0) :: work).IsChain fun a b => Edge adjacency b.1 a.1)
    (hlook : ∀ u w, Looked adjacency { t with work := work } u w →
      Looked adjacency t u w ∨ w = node)
    (hreach : ∀ g ∈ t.opened, Reach adjacency g node) :
    Inv adjacency ({ t with work := work }.enter node) := by
  set t' : Tarjan := { t with work := work }.enter node with ht'
  have hoff : node ∉ t.stack := fun hmem => by
    have := h.stack_visited node hmem
    simp [hfresh] at this
  have hstack : t'.stack = node :: t.stack := rfl
  have hopen' : t'.opened = node :: t.opened := by rw [← hopen]; rfl
  have hne : ∀ v ∈ t.stack, v ≠ node := fun v hv heq => hoff (heq ▸ hv)
  have hself : t'.idx node = t.next := idx_enter_self _ node
  have hold : ∀ v ∈ t.stack, t'.idx v = t.idx v := fun v hv => idx_enter_of_ne _ (hne v hv)
  have hbelow : ∀ v ∈ t.stack, t.idx v < t.next := fun v hv => h.idx_lt v (h.stack_visited v hv)
  have hlows : t'.low node = t.next := by simp [ht', enter]
  have hlowo : ∀ v ∈ t.opened, t'.low v = t.low v := fun v hv => by
    simp [ht', enter, hne v (h.opened_mem hv)]
  have hvis : ∀ v, (t'.index v).isSome ↔ v = node ∨ (t.index v).isSome := by
    intro v
    rcases eq_or_ne v node with rfl | hv
    · simp [ht', enter]
    · simp [ht', enter, hv]
  have hlooked : ∀ u w, Looked adjacency t' u w → u ≠ node ∧
    (Looked adjacency t u w ∨ w = node) := by
    rintro u w ⟨j, hj, hje⟩
    refine ⟨fun heq => ?_, hlook u w ⟨j, hj, fun e he => hje e (List.mem_cons_of_mem _ he)⟩⟩
    have := hje 0 (by rw [heq]; exact List.mem_cons_self)
    omega
  have hdone : ∀ v, Done t' v ↔ Done t v := by grind [Done]
  exact
    { visited_lt := fun v hv => by
        rcases (hvis v).mp hv with rfl | hv
        · exact hlt
        · exact h.visited_lt v hv
      idx_lt := fun v hv => by
        show t'.idx v < t.next + 1
        rcases eq_or_ne v node with rfl | hne'
        · omega
        · have := h.idx_lt v (((hvis v).mp hv).resolve_left hne')
          rw [show t'.idx v = t.idx v from idx_enter_of_ne _ hne']
          omega
      stack_visited := fun v hv => by
        rcases List.mem_cons.mp (hstack ▸ hv) with rfl | hv
        · exact (hvis _).mpr (Or.inl rfl)
        · exact (hvis v).mpr (Or.inr (h.stack_visited v hv))
      onStack_iff := fun v => by
        rcases eq_or_ne v node with rfl | hv
        · simp [ht', enter]
        · simp [ht', enter, hv, h.onStack_iff]
      stack_sorted := by
        rw [hstack, List.pairwise_cons]
        refine ⟨fun v hv => by rw [hself, hold v hv]; exact hbelow v hv, ?_⟩
        refine h.stack_sorted.imp_of_mem fun {a b} ha hb hab => ?_
        rw [hold a ha, hold b hb]
        exact hab
      opened_sublist := by rw [hopen', hstack]; exact h.opened_sublist.cons_cons node
      path := hpath
      looked_visited := fun u hu w hl => by
        obtain ⟨hun, hl | rfl⟩ := hlooked u w hl
        · have hu' : u ∈ t.stack := (List.mem_cons.mp (hstack ▸ hu)).resolve_left hun
          exact (hvis w).mpr (Or.inr (h.looked_visited u hu' w hl))
        · exact (hvis _).mpr (Or.inl rfl)
      reaches_up := fun g hg u hu hgu => by
        rw [hopen'] at hg
        rw [hstack] at hu
        rcases List.mem_cons.mp hu with rfl | hu'
        · grind
        · grind [h.opened_mem, h.reaches_up]
      reaches_open := fun u hu => by
        rw [hopen']
        rcases List.mem_cons.mp (hstack ▸ hu) with rfl | hu
        · exact ⟨u, List.mem_cons_self, le_rfl, ReflTransGen.refl⟩
        · grind [h.reaches_open, h.opened_mem]
      low_le := fun g hg => by
        rcases List.mem_cons.mp (hopen' ▸ hg) with rfl | hg
        · rw [hlows, hself]
        · rw [hlowo g hg, hold g (h.opened_mem hg)]
          exact h.low_le g hg
      low_reached := fun g hg => by
        rw [hstack]
        rcases List.mem_cons.mp (hopen' ▸ hg) with rfl | hg
        · exact ⟨g, List.mem_cons_self, by rw [hlows, hself], ReflTransGen.refl⟩
        · obtain ⟨w, hw, hidx, hr⟩ := h.low_reached g hg
          exact ⟨w, List.mem_cons_of_mem _ hw, by rw [hold w hw, hlowo g hg, hidx], hr⟩
      low_bound := fun v hv u hu hvu w hw hl => by
        obtain ⟨hun, hl⟩ := hlooked u w hl
        have hu' : u ∈ t.stack := (List.mem_cons.mp (hstack ▸ hu)).resolve_left hun
        rw [hopen'] at hv ⊢
        rcases List.mem_cons.mp hv with rfl | hv
        · rw [hself, hold u hu'] at hvu
          exact absurd (hbelow u hu') (by omega)
        · grind [h.opened_mem, h.low_bound]
      done_closed := fun v hv w he => (hdone w).mpr (h.done_closed v ((hdone v).mp hv) w he)
      done_iff := fun v => (hdone v).trans (h.done_iff v)
      out_nodup := h.out_nodup
      out_mutual := h.out_mutual
      out_closed := h.out_closed
      out_ne := h.out_ne }

/-- The node popped last splits the stack by its number. -/
lemma mem_popped {node : ℕ} {pre rest : List ℕ} (hst : t.stack = pre ++ node :: rest) :
    (∀ u, u ∈ pre ++ [node] ↔ u ∈ t.stack ∧ t.idx node ≤ t.idx u) ∧
      ∀ u, u ∈ rest ↔ u ∈ t.stack ∧ t.idx u < t.idx node := by
  have hsorted := h.stack_sorted
  rw [hst, List.pairwise_append, List.pairwise_cons] at hsorted
  obtain ⟨-, ⟨hrest, -⟩, hpre⟩ := hsorted
  have hup : ∀ u ∈ pre ++ [node], t.idx node ≤ t.idx u := by
    intro u hu
    rcases List.mem_append.mp hu with hu | hu
    · exact (hpre u hu node List.mem_cons_self).le
    · rw [List.mem_singleton.mp hu]
  have hsplit : ∀ u, u ∈ t.stack ↔ u ∈ pre ++ [node] ∨ u ∈ rest := by
    intro u
    simp [hst, or_assoc]
  refine ⟨fun u => ⟨fun hu => ⟨(hsplit u).mpr (Or.inl hu), hup u hu⟩, ?_⟩,
    fun u => ⟨fun hu => ⟨(hsplit u).mpr (Or.inr hu), hrest u hu⟩, ?_⟩⟩
  · grind
  · grind

section Top

variable {node edge succ : ℕ} {rest : List (ℕ × ℕ)} (hw : t.work = (node, edge) :: rest)

include hw

lemma idx_le_head {g : ℕ} (hg : g ∈ t.opened) : t.idx g ≤ t.idx node := by
  grind [opened, h.stack_sorted, h.opened_sublist]

lemma head_edge {e : ℕ} (he : (node, e) ∈ t.work) : e = edge := by
  grind [opened, h.opened_nodup]

lemma path_advance : ((node, edge + 1) :: rest).IsChain fun a b => Edge adjacency b.1 a.1 := by
  have hp := h.path
  rw [hw] at hp
  cases rest with
  | nil => simp
  | cons b rest => simpa using hp

lemma handedLow_self : handedLow t node rest node = t.low node := by
  rcases rest with _ | ⟨⟨parent, e⟩, rest⟩
  · rfl
  · have hnodup := h.opened_nodup
    simp only [opened, hw, List.map_cons, List.nodup_cons, List.mem_cons, not_or] at hnodup
    simp [handedLow, hnodup.1.1]

/-! ### Looking at an edge -/

section Look

variable (hs : (succs adjacency node)[edge]? = some succ)

include hs

/-- Looking at one more edge of the innermost open node adds that edge alone to those looked
at. -/
lemma looked_advance (t' : Tarjan) (hw' : t'.work = (node, edge + 1) :: rest) {u w : ℕ}
    (hl : Looked adjacency t' u w) : Looked adjacency t u w ∨ u = node ∧ w = succ := by
  obtain ⟨j, hj, hlt⟩ := hl
  rcases eq_or_ne u node with rfl | hne
  · have hje : j < edge + 1 := hlt (edge + 1) (by simp [hw'])
    rcases Nat.lt_succ_iff_lt_or_eq.mp hje with hje | rfl
    · exact Or.inl ⟨j, hj, fun e he => by rw [h.head_edge hw he]; exact hje⟩
    · exact Or.inr ⟨rfl, by rw [hs] at hj; exact (Option.some.inj hj).symm⟩
  · refine Or.inl ⟨j, hj, fun e he => hlt e ?_⟩
    rw [hw, List.mem_cons, Prod.mk.injEq] at he
    rw [hw', List.mem_cons]
    rcases he with he | he
    · exact absurd he.1 hne
    · exact Or.inr he

/-- Looking at an edge to a visited node keeps the invariant, when the low links go down to nodes
reached on the stack and the edge's node is bounded. -/
lemma advance (hvis : (t.index succ).isSome) (low : ℕ → ℕ) (hle : ∀ g, low g ≤ t.low g)
    (hreached : ∀ g ∈ t.opened, ∃ w ∈ t.stack, t.idx w = low g ∧ Reach adjacency g w)
    (hbound : succ ∈ t.stack → low node ≤ t.idx succ) :
    Inv adjacency { t with work := (node, edge + 1) :: rest, low := low } := by
  set t' : Tarjan := { t with work := (node, edge + 1) :: rest, low := low } with ht'
  have hopen : t'.opened = t.opened := by simp [ht', opened, hw]
  have hadv := fun {u w : ℕ} => h.looked_advance hw hs t' rfl (u := u) (w := w)
  exact
    { h with
      opened_sublist := by rw [hopen]; exact h.opened_sublist
      path := h.path_advance hw
      looked_visited := fun u hu w hl => by
        rcases hadv hl with hl | ⟨-, rfl⟩
        · exact h.looked_visited u hu w hl
        · exact hvis
      reaches_up := by rw [hopen]; exact h.reaches_up
      reaches_open := by rw [hopen]; exact h.reaches_open
      low_le := by
        rw [hopen]
        exact fun g hg => (hle g).trans (h.low_le g hg)
      low_reached := by rw [hopen]; exact hreached
      low_bound := by
        rw [hopen]
        intro v hv u hu hvu w hw' hl
        rcases hadv hl with hl | ⟨rfl, rfl⟩
        · obtain ⟨g, hg, hvg, hgw⟩ := h.low_bound v hv u hu hvu w hw' hl
          exact ⟨g, hg, hvg, (hle g).trans hgw⟩
        · exact ⟨u, opened_top hw, hvu, hbound hw'⟩ }

lemma look_done (hvis : (t.index succ).isSome) (hoff : succ ∉ t.stack) :
    Inv adjacency { t with work := (node, edge + 1) :: rest } :=
  h.advance hw hs hvis t.low (fun _ => le_rfl) h.low_reached fun hon => absurd hon hoff

/-- Looking at an edge that leads to a node on the stack lowers the low link to that node. -/
lemma look_stack (hon : succ ∈ t.stack) :
    Inv adjacency
      { t with
        work := (node, edge + 1) :: rest
        low := Function.update t.low node (min (t.low node) (t.idx succ)) } := by
  refine h.advance hw hs (h.stack_visited _ hon) _ (fun g => ?_) (fun g hg => ?_) (by simp)
  · rcases eq_or_ne g node with rfl | hne
    · simp
    · simp [hne]
  · obtain ⟨w, hw', hidx, hr⟩ := h.low_reached g hg
    rcases eq_or_ne g node with rfl | hne
    · rw [Function.update_self]
      rcases le_total (t.low g) (t.idx succ) with hle | hle
      · exact ⟨w, hw', by rw [hidx, min_eq_left hle], hr⟩
      · exact ⟨succ, hon, (min_eq_right hle).symm, .single (List.mem_of_getElem? hs)⟩
    · exact ⟨w, hw', by rw [hidx, Function.update_of_ne hne], hr⟩

lemma enter_child (hgraph : ∀ u v, Edge adjacency u v → v < adjacency.length)
    (hfresh : t.index succ = none) :
    Inv adjacency ({ t with work := (node, edge + 1) :: rest }.enter succ) := by
  have hedge : Edge adjacency node succ := List.mem_of_getElem? hs
  refine h.enter_inv _ hfresh (hgraph _ _ hedge) (by simp [opened, hw]) ?_ (fun u w hl => ?_)
    (fun g hg => ?_)
  · exact List.isChain_cons_cons.mpr ⟨hedge, h.path_advance hw⟩
  · exact (h.looked_advance hw hs _ rfl hl).imp_right And.right
  · exact (h.reaches_up g hg node (h.opened_mem (opened_top hw)) (h.idx_le_head hw hg)).tail hedge

end Look

/-! ### Leaving a node -/

section Leave

variable (hs : (succs adjacency node)[edge]? = none)

include hs

/-- Every edge of a node on the stack is looked at once the innermost open node's edges are and
the node is that one or not open. -/
lemma looked_of_edge {u w : ℕ}
    (hu : u = node ∨ u ∉ t.opened) (he : Edge adjacency u w) : Looked adjacency t u w := by
  obtain ⟨j, hj⟩ := List.getElem?_of_mem he
  refine ⟨j, hj, fun e hmem => ?_⟩
  rcases hu with rfl | hu
  · grind [h.head_edge]
  · exact absurd (List.mem_map_of_mem (f := Prod.fst) hmem) hu

lemma looked_leave (t' : Tarjan) (hw' : t'.work = rest) {u w : ℕ} (hl : Looked adjacency t' u w) :
    Looked adjacency t u w := by
  obtain ⟨j, hj, hlt⟩ := hl
  rcases eq_or_ne u node with rfl | hne
  · exact h.looked_of_edge hw hs (Or.inl rfl) (List.mem_of_getElem? hj)
  · refine ⟨j, hj, fun e he => hlt e ?_⟩
    rw [hw, List.mem_cons, Prod.mk.injEq] at he
    rw [hw']
    exact he.resolve_left fun heq => hne heq.1

/-- **Leaving a node below whose low link the stack goes on** keeps the invariant.

**Proof sketch.** The node reaches one of lower number on the stack, and that one an open node of
at most that number, so whatever reached the node reaches an open node still. Where the node bounded
an edge, its parent does, which took over the low link. -/
lemma leave_stay (hlow : t.low node < t.idx node) :
    Inv adjacency { t with work := rest, low := t.handedLow node rest } := by
  set t' : Tarjan := { t with work := rest, low := t.handedLow node rest } with ht'
  have hopen : t.opened = node :: t'.opened := by simp [ht', opened, hw]
  have hsub : ∀ g ∈ t'.opened, g ∈ t.opened := fun g hg => hopen ▸ List.mem_cons_of_mem _ hg
  have hnode := opened_top hw
  have hle := handedLow_le t node rest
  have hlook := fun {u w : ℕ} => h.looked_leave hw hs t' rfl (u := u) (w := w)
  -- what the node reaches below itself leads to another open node
  have hother : ∃ g ∈ t'.opened, t.idx g ≤ t.idx node ∧ Reach adjacency node g := by
    obtain ⟨w, hwst, hidx, hr⟩ := h.low_reached node hnode
    obtain ⟨g, hg, hgw, hr'⟩ := h.reaches_open w hwst
    refine ⟨g, ?_, by omega, hr.trans hr'⟩
    rcases List.mem_cons.mp (hopen ▸ hg) with rfl | hg
    · omega
    · exact hg
  exact
    { h with
      opened_sublist := by grind [h.opened_sublist]
      path := (h.path_advance hw).tail
      looked_visited := fun u hu w hl => h.looked_visited u hu w (hlook hl)
      reaches_up := fun g hg => h.reaches_up g (hsub g hg)
      reaches_open := fun u hu => by
        obtain ⟨g, hg, hgu, hr⟩ := h.reaches_open u hu
        rcases List.mem_cons.mp (hopen ▸ hg) with rfl | hg'
        · obtain ⟨g', hg', hg'n, hr'⟩ := hother
          exact ⟨g', hg', hg'n.trans hgu, hr.trans hr'⟩
        · exact ⟨g, hg', hgu, hr⟩
      low_le := fun g hg => (hle g).trans (h.low_le g (hsub g hg))
      low_reached := fun g hg => by
        obtain ⟨w, hwst, hidx, hr⟩ := h.low_reached g (hsub g hg)
        rcases rest with _ | ⟨⟨parent, e⟩, rest⟩
        · simp [ht', opened] at hg
        · rcases eq_or_ne g parent with rfl | hne
          · have hself : t'.low g = min (t.low g) (t.low node) := by simp [ht', handedLow]
            have hedge : Edge adjacency g node := by grind [h.path]
            rcases le_total (t.low g) (t.low node) with hgn | hgn
            · exact ⟨w, hwst, hidx.trans (by rw [hself, min_eq_left hgn]), hr⟩
            · obtain ⟨w', hwst', hidx', hr'⟩ := h.low_reached node hnode
              exact ⟨w', hwst', hidx'.trans (by rw [hself, min_eq_right hgn]), hr'.head hedge⟩
          · exact ⟨w, hwst, hidx.trans (by simp [ht', handedLow, hne]), hr⟩
      low_bound := fun v hv u hu hvu w hwst hl => by
        obtain ⟨g, hg, hvg, hgw⟩ := h.low_bound v (hsub v hv) u hu hvu w hwst (hlook hl)
        rcases List.mem_cons.mp (hopen ▸ hg) with rfl | hg'
        · rcases rest with _ | ⟨⟨parent, e⟩, rest⟩
          · simp [ht', opened] at hv
          · have hsorted := h.stack_sorted.sublist h.opened_sublist
            rw [hopen] at hsorted
            have hp : t'.opened = parent :: rest.map Prod.fst := by simp [ht', opened]
            refine ⟨parent, by rw [hp]; exact List.mem_cons_self, ?_, ?_⟩
            · rw [hp, List.pairwise_cons, List.pairwise_cons] at hsorted
              rcases List.mem_cons.mp (hp ▸ hv) with rfl | hv'
              · exact le_rfl
              · exact (hsorted.2.1 v hv').le
            · have : t'.low parent = min (t.low parent) (t.low g) := by simp [ht', handedLow]
              rw [this]
              exact (min_le_right _ _).trans hgw
        · exact ⟨g, hg', hvg, (hle g).trans hgw⟩ }

/-- The nodes above one that is its own low link have no edge out, but to components already
found. -/
lemma root_closed (hlow : t.low node = t.idx node) {u w : ℕ} (hu : u ∈ t.stack)
    (hnu : t.idx node ≤ t.idx u) (he : Edge adjacency u w) :
    Done t w ∨ w ∈ t.stack ∧ t.idx node ≤ t.idx w := by
  have hnode := opened_top hw
  have htop : ∀ g ∈ t.opened, t.idx node ≤ t.idx g → g = node := fun g hg hng =>
    h.idx_inj (h.opened_mem hg) (h.opened_mem hnode) (le_antisymm (h.idx_le_head hw hg) hng)
  have hl : Looked adjacency t u w := by grind [h.looked_of_edge]
  by_cases hwst : w ∈ t.stack
  · grind [h.low_bound]
  · exact Or.inl ⟨h.looked_visited u hu w hl, hwst⟩

/-- **Leaving a node that is its own low link** pops a component.

**Proof sketch.** The popped nodes are those of at least the node's number. Each reaches an open
node, that one the node, and the node each of them, so they reach each other. No edge leads from
them to a node that stays on the stack (`root_closed`), so with the components found before they
are closed under edges, and nothing else is reached from them. -/
lemma leave_root (hlow : t.low node = t.idx node) {pre stack : List ℕ}
    (hst : t.stack = pre ++ node :: stack) :
    Inv adjacency
      { t with
        work := rest
        low := t.handedLow node rest
        stack := stack
        onStack := fun member => if member ∈ pre ++ [node] then false else t.onStack member
        out := t.out ++ [pre ++ [node]] } := by
  obtain ⟨hpop, hkeep⟩ := h.mem_popped hst
  set C := pre ++ [node] with hC
  set t' : Tarjan :=
    { t with
      work := rest
      low := t.handedLow node rest
      stack := stack
      onStack := fun member => if member ∈ C then false else t.onStack member
      out := t.out ++ [C] } with ht'
  have hidx : ∀ v, t'.idx v = t.idx v := fun _ => rfl
  have hopen : t.opened = node :: t'.opened := by simp [ht', opened, hw]
  have hsub : ∀ g ∈ t'.opened, g ∈ t.opened := fun g hg => hopen ▸ List.mem_cons_of_mem _ hg
  have hnode := opened_top hw
  have hin : ∀ v ∈ t'.stack, v ∈ t.stack := fun v hv => ((hkeep v).mp hv).1
  have hlook := fun {u w : ℕ} => h.looked_leave hw hs t' rfl (u := u) (w := w)
  -- the open nodes left have lower numbers, so they stay on the stack and keep their low links
  have hbelow : ∀ g ∈ t'.opened, t.idx g < t.idx node := by
    have hsorted := h.stack_sorted.sublist h.opened_sublist
    rw [hopen, List.pairwise_cons] at hsorted
    exact hsorted.1
  have hlow' : ∀ g ∈ t'.opened, t'.low g = t.low g := by
    intro g hg
    have hle := h.low_le g (hsub g hg)
    have hlt := hbelow g hg
    rcases rest with _ | ⟨⟨parent, e⟩, rest⟩
    · rfl
    · rcases eq_or_ne g parent with rfl | hne
      · have : t'.low g = min (t.low g) (t.low node) := by simp [ht', handedLow]
        rw [this, min_eq_left (by omega)]
      · simp [ht', handedLow, hne]
  have hkeeps : ∀ g ∈ t'.opened, g ∈ t'.stack := fun g hg =>
    (hkeep g).mpr ⟨h.opened_mem (hsub g hg), hbelow g hg⟩
  have hdone : ∀ v, Done t' v ↔ Done t v ∨ v ∈ C := by
    intro v
    constructor
    · rintro ⟨hv, hoff⟩
      by_cases hvst : v ∈ t.stack
      · right
        refine (hpop v).mpr ⟨hvst, not_lt.mp fun hlt => hoff ((hkeep v).mpr ⟨hvst, hlt⟩)⟩
      · exact Or.inl ⟨hv, hvst⟩
    · rintro (⟨hv, hoff⟩ | hv)
      · exact ⟨hv, fun hmem => hoff (hin v hmem)⟩
      · obtain ⟨hvst, hle⟩ := (hpop v).mp hv
        refine ⟨h.stack_visited v hvst, fun hmem => ?_⟩
        have := ((hkeep v).mp hmem).2
        omega
  have hclosed : ∀ v, Done t' v → ∀ w, Edge adjacency v w → Done t' w := by
    grind [h.done_closed, h.root_closed]
  have hmutual : ∀ u ∈ C, ∀ v ∈ C, Reach adjacency u v := by
    intro u hu v hv
    obtain ⟨hust, -⟩ := (hpop u).mp hu
    obtain ⟨hvst, hnv⟩ := (hpop v).mp hv
    obtain ⟨g, hg, -, hug⟩ := h.reaches_open u hust
    have hgn := h.reaches_up g hg node (h.opened_mem hnode) (h.idx_le_head hw hg)
    exact (hug.trans hgn).trans (h.reaches_up node hnode v hvst hnv)
  exact
    { h with
      stack_visited := fun v hv => h.stack_visited v (hin v hv)
      onStack_iff := fun v => by
        simp only [ht', Bool.if_false_left, Bool.and_eq_true, Bool.not_eq_true',
          decide_eq_false_iff_not, h.onStack_iff]
        rw [hkeep, hpop]
        constructor
        · rintro ⟨hnot, hv⟩
          exact ⟨hv, not_le.mp fun hle => hnot ⟨hv, hle⟩⟩
        · rintro ⟨hv, hlt⟩
          exact ⟨fun hle => absurd hle.2 (by omega), hv⟩
      stack_sorted := by
        have hsl : stack.Sublist t.stack := by
          rw [hst]
          exact (List.sublist_cons_self node stack).trans (List.sublist_append_right pre _)
        exact h.stack_sorted.sublist hsl
      opened_sublist := by
        have hsl := h.opened_sublist
        rw [hopen, hst] at hsl
        -- the open nodes left avoid what is popped
        have hfilter := hsl.filter fun v => decide (t.idx v < t.idx node)
        have h1 : (node :: t'.opened).filter (fun v => decide (t.idx v < t.idx node)) =
            t'.opened := by
          rw [List.filter_cons_of_neg (by simp), List.filter_eq_self.mpr]
          exact fun g hg => by simpa using hbelow g hg
        have h2 : (pre ++ node :: stack).filter (fun v => decide (t.idx v < t.idx node)) =
            stack := by
          rw [List.filter_append, List.filter_cons_of_neg (by simp),
            List.filter_eq_nil_iff.mpr, List.nil_append, List.filter_eq_self.mpr]
          · exact fun v hv => by simpa using ((hkeep v).mp hv).2
          · grind
        rwa [h1, h2] at hfilter
      path := (h.path_advance hw).tail
      looked_visited := fun u hu w hl => h.looked_visited u (hin u hu) w (hlook hl)
      reaches_up := fun g hg u hu hgu => h.reaches_up g (hsub g hg) u (hin u hu) hgu
      reaches_open := fun u hu => by
        obtain ⟨hust, hlt⟩ := (hkeep u).mp hu
        obtain ⟨g, hg, hgu, hr⟩ := h.reaches_open u hust
        rcases List.mem_cons.mp (hopen ▸ hg) with rfl | hg'
        · omega
        · exact ⟨g, hg', hgu, hr⟩
      low_le := fun g hg => by
        rw [hlow' g hg]
        exact h.low_le g (hsub g hg)
      low_reached := fun g hg => by
        obtain ⟨w, hwst, hwidx, hr⟩ := h.low_reached g (hsub g hg)
        have hle := h.low_le g (hsub g hg)
        have hlt := hbelow g hg
        exact ⟨w, (hkeep w).mpr ⟨hwst, by omega⟩, by rw [hlow' g hg]; exact hwidx, hr⟩
      low_bound := fun v hv u hu hvu w hwst hl => by
        obtain ⟨hwin, hwlt⟩ := (hkeep w).mp hwst
        obtain ⟨g, hg, hvg, hgw⟩ :=
          h.low_bound v (hsub v hv) u (hin u hu) hvu w hwin (hlook hl)
        rcases List.mem_cons.mp (hopen ▸ hg) with rfl | hg'
        · omega
        · exact ⟨g, hg', hvg, by rw [hlow' g hg']; exact hgw⟩
      done_closed := hclosed
      done_iff := fun v => by
        rw [hdone, h.done_iff]
        simp [ht']
      out_nodup := by
        have hCnd : C.Nodup := by
          have hsl : C.Sublist t.stack := by
            rw [hst, hC, show pre ++ node :: stack = (pre ++ [node]) ++ stack by simp]
            exact List.sublist_append_left _ _
          exact hsl.nodup h.stack_nodup
        simp only [ht', List.flatten_append, List.flatten_cons, List.flatten_nil, List.append_nil]
        refine List.nodup_append.mpr ⟨h.out_nodup, hCnd, ?_⟩
        intro a ha b hb hab
        subst hab
        exact ((h.done_iff a).mpr ha).2 ((hpop a).mp hb).1
      out_mutual := fun D hD => by
        rcases List.mem_append.mp hD with hD | hD
        · exact h.out_mutual D hD
        · rw [List.mem_singleton.mp hD]
          exact hmutual
      out_closed := fun A D B hsplit u hu w hr => by
        rcases List.eq_nil_or_concat B with rfl | ⟨B, D', rfl⟩
        · -- the new component: with what was found before it is closed under edges
          obtain ⟨rfl, hD⟩ := List.append_inj' hsplit rfl
          rw [List.singleton_inj.mp hD.symm]
          have hmem : ∀ v, Done t' v → v ∈ C ∨ v ∈ t.out.flatten := fun v hv =>
            ((hdone v).mp hv).symm.imp id (h.done_iff v).mp
          have hstart : Done t' u := (hdone u).mpr (Or.inr (by
            rw [← List.singleton_inj.mp hD.symm]; exact hu))
          refine hmem w ?_
          clear hmem
          induction hr with
          | refl => exact hstart
          | tail _ he ih => exact hclosed _ ih _ he
        · have hout : t.out = A ++ D :: B := by
            have : t.out ++ [C] = (A ++ D :: B) ++ [D'] := by simpa using hsplit
            exact (List.append_inj' this rfl).1
          exact h.out_closed A D B hout u hu w hr
      out_ne := by simp [ht', hC, h.out_ne] }

/-- **Leaving a node** keeps the invariant. -/
lemma leave : Inv adjacency (t.leave node rest) := by
  have hnode := opened_top hw
  have hidx : t.index node = some (t.idx node) := by
    obtain ⟨i, hi⟩ := Option.isSome_iff_exists.mp (h.stack_visited node (h.opened_mem hnode))
    simp [idx, hi]
  have hself : some (t.handedLow node rest node) = t.index node ↔ t.low node = t.idx node := by
    rw [h.handedLow_self hw, hidx, Option.some_inj]
  by_cases hlow : t.low node = t.idx node
  · obtain ⟨pre, stack, hst, hpop⟩ := popComponent_eq node t.stack (h.opened_mem hnode)
    have := h.leave_root hw hs hlow hst
    simpa only [Tarjan.leave, if_pos (hself.mpr hlow), hpop] using this
  · have := h.leave_stay hw hs (lt_of_le_of_ne (h.low_le node hnode) hlow)
    simpa only [Tarjan.leave, if_neg (mt hself.mp hlow)] using this

end Leave

end Top

/-! ### A turn and a whole search -/

/-- **A turn of the inner loop** keeps the invariant. -/
lemma step (hgraph : ∀ u v, Edge adjacency u v → v < adjacency.length) {t' : Tarjan}
    (hstep : t.step adjacency = some t') : Inv adjacency t' := by
  unfold Tarjan.step at hstep
  split at hstep
  · simp at hstep
  · next node edge rest hw =>
    split at hstep
    · next succ hs =>
      dsimp only at hstep
      split at hstep
      · grind [h.enter_child]
      · next index hindex =>
        have hidx : t.idx succ = index := by simp [idx, hindex]
        split at hstep
        · grind [h.look_stack, h.onStack_iff]
        · grind [h.look_done, h.onStack_iff]
    · next hs =>
      obtain rfl := Option.some.inj hstep
      exact h.leave hw hs

end Inv

/-! ## The search ends -/

/-- What the search still has to do: the edges and the leaving of every node not visited, and of
every open node the edges it has not looked at and its leaving. -/
def left (adjacency : List (List ℕ)) (t : Tarjan) : ℕ :=
  (∑ v ∈ Finset.range adjacency.length,
    if t.index v = none then (succs adjacency v).length + 1 else 0) +
  (t.work.map fun open_ => (succs adjacency open_.1).length - open_.2 + 1).sum

/-- Entering a node moves what it has to do from the nodes not visited to the open ones. -/
lemma left_enter {node : ℕ} (hfresh : t.index node = none) (hlt : node < adjacency.length) :
    left adjacency (t.enter node) = left adjacency t := by
  have hmem : node ∈ Finset.range adjacency.length := Finset.mem_range.mpr hlt
  have hrest : ∀ v ∈ (Finset.range adjacency.length).erase node,
      (if (t.enter node).index v = none then (succs adjacency v).length + 1 else 0) =
        if t.index v = none then (succs adjacency v).length + 1 else 0 := by
    intro v hv
    simp [enter, Finset.ne_of_mem_erase hv]
  have hself : (t.enter node).index node ≠ none := by simp [enter]
  simp only [left]
  rw [← Finset.add_sum_erase _ _ hmem, ← Finset.add_sum_erase _ _ hmem,
    Finset.sum_congr rfl hrest, if_neg hself, if_pos hfresh]
  simp only [enter, List.map_cons, List.sum_cons]
  omega

/-- **A turn of the inner loop** leaves one thing less to do. -/
lemma left_step (hgraph : ∀ u v, Edge adjacency u v → v < adjacency.length) {t' : Tarjan}
    (hstep : t.step adjacency = some t') : left adjacency t = left adjacency t' + 1 := by
  unfold Tarjan.step at hstep
  split at hstep
  · simp at hstep
  · next node edge rest hw =>
    split at hstep
    · next succ hs =>
      have hlt : edge < (succs adjacency node).length := (List.getElem?_eq_some_iff.mp hs).1
      have hlook : left adjacency t =
          left adjacency { t with work := (node, edge + 1) :: rest } + 1 := by
        simp only [left, hw, List.map_cons, List.sum_cons]
        omega
      dsimp only at hstep
      split at hstep
      · next hfresh =>
        obtain rfl := Option.some.inj hstep
        have hlt' := hgraph _ _ (List.mem_of_getElem? hs)
        rw [hlook, left_enter (t := { t with work := (node, edge + 1) :: rest }) hfresh hlt']
      · split at hstep <;> (obtain rfl := Option.some.inj hstep; exact hlook)
    · next hs =>
      have hle := List.getElem?_eq_none_iff.mp hs
      obtain rfl := Option.some.inj hstep
      have hwork : (t.leave node rest).work = rest := by
        unfold Tarjan.leave
        dsimp only
        split <;> rfl
      have hindex : (t.leave node rest).index = t.index := by
        unfold Tarjan.leave
        dsimp only
        split <;> rfl
      simp only [left, hwork, hindex, hw, List.map_cons, List.sum_cons]
      omega

lemma work_visit (hgraph : ∀ u v, Edge adjacency u v → v < adjacency.length) (fuel : ℕ)
    (hfuel : left adjacency t ≤ fuel) : (t.visit adjacency fuel).work = [] := by
  induction fuel generalizing t with
  | zero =>
    have hzero : left adjacency t = 0 := by omega
    rcases hw : t.work with _ | ⟨open_, rest⟩
    · exact hw
    · simp [left, hw] at hzero
  | succ fuel ih => grind [Tarjan.visit, Tarjan.step, left_step]

/-- A visited node stays visited. -/
lemma visited_step {t' : Tarjan} (hstep : t.step adjacency = some t') {v : ℕ}
    (hv : (t.index v).isSome) : (t'.index v).isSome := by
  unfold Tarjan.step at hstep
  split at hstep
  · simp at hstep
  · dsimp only at hstep
    split at hstep
    · next succ _ =>
      split at hstep
      · next hfresh =>
        obtain rfl := Option.some.inj hstep
        have hne : v ≠ succ := fun heq => by simp [heq, hfresh] at hv
        simpa [enter, hne] using hv
      · split at hstep <;> (obtain rfl := Option.some.inj hstep; exact hv)
    · grind [Tarjan.leave]

lemma visited_visit (fuel : ℕ) {v : ℕ} (hv : (t.index v).isSome) :
    ((t.visit adjacency fuel).index v).isSome := by
  induction fuel generalizing t with
  | zero => exact hv
  | succ fuel ih =>
    unfold Tarjan.visit
    split
    · exact hv
    · next hstep => exact ih (visited_step hstep hv)

lemma left_start (adjacency : List (List ℕ)) :
    left adjacency start = (adjacency.map List.length).sum + adjacency.length := by
  have hsum : ∀ l : List (List ℕ), ∑ v ∈ Finset.range l.length, (succs l v).length =
      (l.map List.length).sum := by
    intro l
    induction l with
    | nil => simp
    | cons a l ih =>
      rw [List.length_cons, Finset.sum_range_succ', List.map_cons, List.sum_cons, ← ih]
      simp [succs, add_comm]
  simp [left, start, Finset.sum_add_distrib, hsum]

lemma left_le_start (hwork : t.work = []) : left adjacency t ≤ left adjacency start := by
  simp only [left, hwork, start, List.map_nil, List.sum_nil, add_zero]
  refine Finset.sum_le_sum fun v _ => ?_
  split <;> simp

namespace Inv

lemma start (adjacency : List (List ℕ)) : Inv adjacency Tarjan.start := by
  constructor <;> simp [Tarjan.start, opened, Done]

/-- **The inner loop** keeps the invariant. -/
lemma visit (hgraph : ∀ u v, Edge adjacency u v → v < adjacency.length) (fuel : ℕ)
    (h : Inv adjacency t) : Inv adjacency (t.visit adjacency fuel) := by
  induction fuel generalizing t with
  | zero => exact h
  | succ fuel ih =>
    unfold Tarjan.visit
    split
    · exact h
    · next t' hstep => exact ih (h.step hgraph hstep)

lemma stack_eq_nil (h : Inv adjacency t) (hwork : t.work = []) : t.stack = [] := by
  refine List.eq_nil_iff_forall_not_mem.mpr fun u hu => ?_
  obtain ⟨g, hg, -⟩ := h.reaches_open u hu
  simp [opened, hwork] at hg

lemma enter_root (h : Inv adjacency t) {node : ℕ} (hfresh : t.index node = none)
    (hwork : t.work = []) (hlt : node < adjacency.length) : Inv adjacency (t.enter node) := by
  have hopened : t.opened = [] := by simp [opened, hwork]
  refine h.enter_inv t.work hfresh hlt rfl ?_ (fun u w hl => Or.inl hl) ?_
  · simp [hwork]
  · simp [hopened]

/-- **A turn of the loop over the roots** keeps the invariant, ends inside no node, and visits the
root. -/
lemma root (h : Inv adjacency t) (hgraph : ∀ u v, Edge adjacency u v → v < adjacency.length)
    (hwork : t.work = []) {node : ℕ} (hlt : node < adjacency.length) :
    Inv adjacency (t.root adjacency node) ∧ (t.root adjacency node).work = [] ∧
      ∀ v, (v = node ∨ (t.index v).isSome) → ((t.root adjacency node).index v).isSome := by
  unfold Tarjan.root
  split
  · next index hindex =>
    exact ⟨h, hwork, fun v hv => hv.elim (fun heq => by simp [heq, hindex]) id⟩
  · next hfresh =>
    have henter := h.enter_root hfresh hwork hlt
    refine ⟨henter.visit hgraph _, work_visit hgraph _ ?_, fun v hv => ?_⟩
    · rw [left_enter hfresh hlt, ← left_start]
      exact left_le_start hwork
    · refine visited_visit _ ?_
      rcases eq_or_ne v node with rfl | hne
      · simp [enter]
      · simpa [enter, hne] using hv.resolve_left hne

/-- **The loop over the roots** keeps the invariant, ends inside no node, and visits every root. -/
lemma roots (hgraph : ∀ u v, Edge adjacency u v → v < adjacency.length) (nodes : List ℕ)
    (hlt : ∀ v ∈ nodes, v < adjacency.length) {t : Tarjan} (h : Inv adjacency t)
    (hwork : t.work = []) :
    Inv adjacency (nodes.foldl (Tarjan.root adjacency) t) ∧
      (nodes.foldl (Tarjan.root adjacency) t).work = [] ∧ ∀ v, (v ∈ nodes ∨ (t.index v).isSome) →
        ((nodes.foldl (Tarjan.root adjacency) t).index v).isSome := by
  induction nodes generalizing t with
  | nil => exact ⟨h, hwork, fun v hv => hv.elim (by simp) id⟩
  | cons node nodes ih => grind [h.root]

end Inv

end Tarjan

/-! ## The components -/

section Components

variable {adjacency : List (List ℕ)}
  (hgraph : ∀ u v, Tarjan.Edge adjacency u v → v < adjacency.length)

include hgraph

lemma exists_inv_components :
    ∃ t : Tarjan, Tarjan.Inv adjacency t ∧
    components adjacency = t.out ∧ ∀ v, v < adjacency.length ↔ v ∈ t.out.flatten := by
  obtain ⟨h, hwork, hvis⟩ := Tarjan.Inv.roots hgraph (List.range adjacency.length) (by simp)
    (Tarjan.Inv.start adjacency) rfl
  refine ⟨_, h, rfl, fun v => ?_⟩
  rw [← h.done_iff]
  constructor
  · intro hv
    refine ⟨hvis v (Or.inl (by simpa using hv)), ?_⟩
    simp [h.stack_eq_nil hwork]
  · exact fun hv => h.visited_lt v hv.1

/-- **Every node lies in some component**, and nothing else does. -/
lemma mem_components (v : ℕ) : (∃ C ∈ components adjacency, v ∈ C) ↔ v < adjacency.length := by
  obtain ⟨t, -, hout, hall⟩ := exists_inv_components hgraph
  rw [hout, hall, List.mem_flatten]

lemma components_nodup : (components adjacency).flatten.Nodup := by
  obtain ⟨t, h, hout, -⟩ := exists_inv_components hgraph
  exact hout ▸ h.out_nodup

/-- **A component reaches only itself and the components before it**, so each comes after every
component it reaches. -/
lemma components_closed {A B : List (List ℕ)} {C : List ℕ}
    (hsplit : components adjacency = A ++ C :: B) {u w : ℕ} (hu : u ∈ C)
    (hr : Tarjan.Reach adjacency u w) : w ∈ C ∨ w ∈ A.flatten := by
  obtain ⟨t, h, hout, -⟩ := exists_inv_components hgraph
  exact h.out_closed A C B (hout ▸ hsplit) u hu w hr

/-- **Two nodes lie in one component exactly when each reaches the other.**

**Proof sketch.** Nodes of a component reach each other by the invariant. If a node outside the
component is reached from it, it lies in one before, which reaches nothing of a later one. -/
lemma components_mutual_iff {C : List ℕ} (hC : C ∈ components adjacency) {u : ℕ} (hu : u ∈ C)
    (v : ℕ) : v ∈ C ↔ Tarjan.Reach adjacency u v ∧ Tarjan.Reach adjacency v u := by
  obtain ⟨t, h, hout, -⟩ := exists_inv_components hgraph
  constructor
  · intro hv
    rw [hout] at hC
    exact ⟨h.out_mutual C hC u hu v hv, h.out_mutual C hC v hv u hu⟩
  · rintro ⟨huv, hvu⟩
    obtain ⟨A, B, hsplit⟩ := List.append_of_mem hC
    refine (components_closed hgraph hsplit hu huv).resolve_right fun hA => ?_
    obtain ⟨D, hD, hvD⟩ := List.mem_flatten.mp hA
    obtain ⟨A₁, A₂, rfl⟩ := List.append_of_mem hD
    -- then the component of `v`, which comes before, reaches `u`, so `u` is listed twice
    have hback := components_closed hgraph (A := A₁) (B := A₂ ++ C :: B)
      (by rw [hsplit]; simp) hvD hvu
    have hnodup := components_nodup hgraph
    rw [hsplit, List.flatten_append, List.nodup_append] at hnodup
    refine hnodup.2.2 u ?_ u (by simp [hu]) rfl
    rcases hback with hback | hback
    · exact List.mem_flatten.mpr ⟨D, by simp, hback⟩
    · simp only [List.flatten_append, List.mem_append]
      exact Or.inl hback

/-- **The components are the strongly connected ones**: they part the nodes, two nodes lie in one
exactly when each reaches the other, and a component another one reaches comes before it.

**Proof sketch.** The invariant holds when the search ends, with every node in a component. A node
one component reaches lies in it or in one before (`components_closed`), and lies in one only. -/
theorem components_stronglyConnected :
    (components adjacency).flatten.Nodup ∧
      (∀ v, v ∈ (components adjacency).flatten ↔ v < adjacency.length) ∧ [] ∉ components adjacency ∧
      (∀ u v, u < adjacency.length → ((∃ C ∈ components adjacency, u ∈ C ∧ v ∈ C) ↔
        Tarjan.Reach adjacency u v ∧ Tarjan.Reach adjacency v u)) ∧
      ∀ (i j : ℕ) (C D : List ℕ), (components adjacency)[i]? = some C →
        (components adjacency)[j]? = some D → i ≠ j →
        (∃ u ∈ C, ∃ v ∈ D, Tarjan.Reach adjacency u v) → j < i := by
  refine ⟨components_nodup hgraph, fun v => ?_, ?_, fun u v hu => ?_, ?_⟩
  · rw [← mem_components hgraph, List.mem_flatten]
  · obtain ⟨t, h, hout, -⟩ := exists_inv_components hgraph
    exact hout ▸ h.out_ne
  · constructor
    · rintro ⟨C, hC, hu, hv⟩
      exact (components_mutual_iff hgraph hC hu v).mp hv
    · intro hmutual
      obtain ⟨C, hC, huC⟩ := (mem_components hgraph u).mpr hu
      exact ⟨C, hC, huC, (components_mutual_iff hgraph hC huC v).mpr hmutual⟩
  · rintro i j C D hi hj hne ⟨u, hu, v, hv, hreach⟩
    obtain ⟨hlt, hC⟩ := List.getElem?_eq_some_iff.mp hi
    have hsplit : components adjacency =
        (components adjacency).take i ++ C :: (components adjacency).drop (i + 1) := by
      rw [← hC, List.cons_getElem_drop_succ, List.take_append_drop]
    have hnodup := List.nodup_flatten.mp (components_nodup hgraph)
    -- a node of a component lies in no other
    have hone : ∀ k E, (components adjacency)[k]? = some E → v ∈ E → k = j := by
      intro k E hk hvE
      by_contra hkj
      obtain ⟨hkl, rfl⟩ := List.getElem?_eq_some_iff.mp hk
      obtain ⟨hjl, rfl⟩ := List.getElem?_eq_some_iff.mp hj
      have hdisjoint := List.pairwise_iff_getElem.mp hnodup.2
      rcases Nat.lt_or_gt_of_ne hkj with hlt | hlt
      · exact hdisjoint k j hkl hjl hlt hvE hv
      · exact hdisjoint j k hjl hkl hlt hv hvE
    rcases components_closed hgraph hsplit hu hreach with hvC | hbefore
    · exact absurd (hone i C hi hvC) hne
    · obtain ⟨E, hE, hvE⟩ := List.mem_flatten.mp hbefore
      obtain ⟨k, hk, rfl⟩ := List.mem_take_iff_getElem.mp hE
      have hkj := hone k _ (List.getElem?_eq_getElem (by omega)) hvE
      omega

end Components

/-- Two nodes of a small graph reach each other, and the third lies in a component of its own. -/
theorem components_stronglyConnected_three :
    components [[1], [0], [0]] = [[1, 0], [2]] ∧ Tarjan.Reach [[1], [0], [0]] 0 1 ∧
      Tarjan.Reach [[1], [0], [0]] 1 0 ∧
      ¬ (Tarjan.Reach [[1], [0], [0]] 0 2 ∧ Tarjan.Reach [[1], [0], [0]] 2 0) := by
  have hgraph : ∀ u v, Tarjan.Edge [[1], [0], [0]] u v → v < [[1], [0], [0]].length := by
    intro u v hedge
    rcases u with _ | _ | _ | u <;> simp_all [Tarjan.Edge, Tarjan.succs]
  have hcomponents : components [[1], [0], [0]] = [[1, 0], [2]] := by decide
  obtain ⟨-, -, -, hmutual, -⟩ := components_stronglyConnected hgraph
  rw [hcomponents] at hmutual
  have hone := (hmutual 0 1 (by decide)).mp (by simp)
  refine ⟨hcomponents, hone.1, hone.2, fun htwo => ?_⟩
  simpa using (hmutual 0 2 (by decide)).mpr htwo

end MeePdn
