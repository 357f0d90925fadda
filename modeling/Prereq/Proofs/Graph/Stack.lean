import Prereq.Proofs.Graph.Order
import Prereq.Proofs.Links.Search
import Prereq.Proofs.Links.Stack

/-!
# Sorting with a stack

* `Graph.yield?` : the node that a walk back over the prerequisites comes to next;
* `Graph.secondYield?` : the second node of the first such walk that has one;
* `Graph.sort` : the order in which walks with a stack finish, provided that no walk back from one of its
  nodes comes to a second node;
* `Graph.order_eq_sort` : the teaching order is this order, and where it fails at a node, a circle that
  can be reached from there is reported;
* `Graph.order_error_exact` : the circle that is reported.

A walk back discovers its start and, if it goes on, fails. So the discovered nodes are those that stand
before in the order, and the second node is the last prerequisite that is not among them.
-/

namespace Prereq.Graph

variable {g : Graph} {c : Curriculum} {discovered stack order : List Node} {n m : Node}

/-! ## Walks back -/

/-- Take nodes from a stack up to the first one that is not discovered. Its prerequisites that are not
discovered either are put on the stack, one after the other. The answer is the node, with what is
discovered then and the stack. -/
def yield? (g : Graph) (discovered : List Node) : (stack : List Node) →
    Option (Node × List Node × List Node)
  | [] => none
  | n :: stack =>
    if n ∈ discovered then g.yield? discovered stack
    else some (n, n :: discovered,
      ((g.prerequisites n).filter (· ∉ n :: discovered)).reverse ++ stack)

/-- Walk back from one node after the other, till a walk comes to a second node. -/
def secondYield? (g : Graph) (discovered : List Node) : (starts : List Node) → Option Node
  | [] => none
  | n :: starts =>
    match g.yield? discovered [n] with
    | none => g.secondYield? discovered starts
    | some (_, discovered, stack) =>
      match g.yield? discovered stack with
      | none => g.secondYield? discovered starts
      | some (m, _) => some m

/-- The nodes in the order in which walks with a stack finish, from last to first. It fails at a node
that depends on itself, and where a walk back comes to a second node. -/
def sort (g : Graph) : Except Node (List Node) := do
  let order ← g.links.stackOrder
  match g.secondYield? [] order with
  | some n => .error n
  | none => .ok order

theorem yield?_singleton (h : n ∉ discovered) :
    g.yield? discovered [n] =
      some (n, n :: discovered, ((g.prerequisites n).filter (· ∉ n :: discovered)).reverse) := by
  rw [yield?, if_neg h, List.append_nil]

/-- If nothing on the stack is discovered, the walk goes on with the top of it. -/
theorem map_yield? (h : ∀ m ∈ stack, m ∉ discovered) :
    (g.yield? discovered stack).map Prod.fst = stack.head? := by
  cases stack with
  | nil => rfl
  | cons m stack =>
    rw [yield?, if_neg (h m List.mem_cons_self)]
    rfl

/-- A walk back from a new node comes to a second one just if that is misplaced. -/
theorem secondYield?_cons (h : n ∉ discovered) (starts : List Node) :
    g.secondYield? discovered (n :: starts) =
      ((g.prerequisites n).filter fun m => m ≠ n ∧ m ∉ discovered).getLast?.or
        (g.secondYield? (n :: discovered) starts) := by
  have hfilter : ((g.prerequisites n).filter fun m => m ≠ n ∧ m ∉ discovered) =
      (g.prerequisites n).filter (· ∉ n :: discovered) :=
    List.filter_congr fun m _ => by simp
  have hnext : (g.yield? (n :: discovered)
      ((g.prerequisites n).filter (· ∉ n :: discovered)).reverse).map Prod.fst =
        ((g.prerequisites n).filter (· ∉ n :: discovered)).reverse.head? :=
    map_yield? fun m hm => by simpa using (List.mem_filter.1 (List.mem_reverse.1 hm)).2
  rw [hfilter, ← List.head?_reverse, ← hnext, secondYield?, yield?_singleton h]
  simp only
  split
  next hnone => rw [hnone, Option.map_none, Option.none_or]
  next m r hsome => rw [hsome, Option.map_some, Option.some_or]

theorem secondYield?_eq (honce : order.Nodup) (hnew : ∀ n ∈ order, n ∉ discovered) :
    g.secondYield? discovered order = g.misplaced? discovered order := by
  induction order generalizing discovered with
  | nil => rfl
  | cons n order ih =>
    obtain ⟨hn, honce⟩ := List.nodup_cons.1 honce
    obtain ⟨hnnew, hnew⟩ := List.forall_mem_cons.1 hnew
    have hrest : g.secondYield? (n :: discovered) order = g.misplaced? (n :: discovered) order :=
      ih honce fun m hm h => (List.mem_cons.1 h).elim (fun h => hn (h ▸ hm)) (hnew m hm)
    rw [secondYield?_cons hnnew, misplaced?_cons, hrest]

theorem sort_of_error (h : g.links.finishAll = .error n) : g.sort = .error n := by
  unfold sort
  rw [Links.stackOrder_eq, h]
  rfl

theorem sort_of_ok (h : g.links.finishAll = .ok order) :
    g.sort = (g.misplaced? [] order).elim (.ok order) .error := by
  have honce : order.Nodup := ((Links.finished_finishAll h).settled trivial).nodup
  rw [← secondYield?_eq honce fun _ _ => List.not_mem_nil]
  unfold sort
  rw [Links.stackOrder_eq, h]
  dsimp only [bind, Except.bind]
  cases g.secondYield? [] order <;> rfl

/-- The teaching order is found by sorting with a stack. -/
theorem order_eq_sort (g : Graph) : g.order = g.sort.mapError g.circleAt := by
  unfold Graph.order
  cases hfinish : g.links.finishAll with
  | error n =>
    rw [sort_of_error hfinish]
    rfl
  | ok order =>
    rw [sort_of_ok hfinish]
    dsimp only
    cases g.misplaced? [] order <;> rfl

/-! ## The circle that is reported -/

/-- From the node where sorting fails a circle can be reached. -/
theorem not_clear_of_sort (h : (ofCurriculum c).sort = .error n) :
    ¬ (ofCurriculum c).links.Clear n := by
  have hself : (ofCurriculum c).links.Reaches n n := by
    cases hfinish : (ofCurriculum c).links.finishAll with
    | error m =>
      rw [sort_of_error hfinish] at h
      cases h
      exact Links.Reaches.of_next (Links.mem_next_of_finishAll hfinish)
    | ok order =>
      rw [sort_of_ok hfinish] at h
      cases hmisplaced : (ofCurriculum c).misplaced? [] order with
      | none =>
        rw [hmisplaced] at h
        cases h
      | some m =>
        rw [hmisplaced] at h
        cases h
        exact reaches_self_of_finishAll hfinish hmisplaced
  exact fun hclear => hclear n (.inl rfl) hself

/-- The search from there meets one. -/
theorem exists_search_of_sort (h : (ofCurriculum c).sort = .error n) :
    ∃ x, (ofCurriculum c).links.search [] [] n = .error x := by
  cases hsearch : (ofCurriculum c).links.search [] [] n with
  | error x => exact ⟨x, rfl⟩
  | ok finished =>
    refine absurd (Links.checkFrom_eq_ok_iff.1 ?_) (not_clear_of_sort h)
    rw [Links.checkFrom, hsearch]
    rfl

/-- **The circle that is reported.** If there is no teaching order, a chain of prerequisites is reported
that ends where it starts and meets no other node twice. It is always one that the search from the
node where sorting fails has met, so that none has to be made up of this node alone. -/
theorem order_error_exact (c : Curriculum) (x : Circle) (h : (ofCurriculum c).order = .error x) :
    c.Circuit x.chain ∧ (∀ n, x.chain = [n, n] → n ∈ c.prerequisites n) ∧
    ∃ n y, (ofCurriculum c).sort = .error n ∧
      (ofCurriculum c).links.search [] [] n = .error y ∧ x.chain = y.chain.reverse := by
  rw [order_eq_sort] at h
  cases hsort : (ofCurriculum c).sort with
  | ok order =>
    rw [hsort] at h
    cases h
  | error n =>
    obtain ⟨y, hsearch⟩ := exists_search_of_sort hsort
    have hx : x.chain = y.chain.reverse := by
      rw [hsort] at h
      cases h
      unfold circleAt
      rw [hsearch]
    have hcircuit : c.Circuit x.chain := by
      obtain ⟨hy, -⟩ := Links.circuit_of_search (List.isChain_singleton n) List.nodup_nil hsearch
      rw [hx, ← Curriculum.circuit_links]
      exact hy.reverse fun m k => by rw [mem_next_links, Curriculum.next_links]
    refine ⟨hcircuit, fun m hm => ?_, n, y, rfl, hsearch, hx⟩
    have hneeds := hcircuit.needs
    rw [hm] at hneeds
    exact (List.isChain_cons_cons.1 hneeds).1

/-- Node 5 needs itself, and the nodes 3, 4 and 6, which form a circle, depend on it. -/
def tangle : Curriculum := .ofList [(3, [5, 4]), (4, [6]), (6, [3]), (5, [5])]

/-- Sorting fails at node 5, and the circle that is met first from there is another one. -/
theorem order_error_exact_tangle : (ofCurriculum tangle).order = .error ⟨[3, 4, 6, 3]⟩ ∧
    tangle.Circuit [3, 4, 6, 3] ∧ 5 ∈ tangle.prerequisites 5 ∧
    ∃ n, (ofCurriculum tangle).sort = .error n := by
  have horder : (ofCurriculum tangle).order = .error ⟨[3, 4, 6, 3]⟩ := by decide +kernel
  obtain ⟨hcircuit, -, n, -, hsort, -⟩ := order_error_exact tangle _ horder
  exact ⟨horder, hcircuit, by decide, n, hsort⟩

end Prereq.Graph
