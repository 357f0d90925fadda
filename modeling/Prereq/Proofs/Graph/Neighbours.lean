import Mathlib.Data.Set.Card
import Prereq.Proofs.Graph.Edges

/-!
# The neighbours of a node

A graph holds what was added to it, each node and each edge where it came first.

* `eraseDups_concat`, `eraseDups_filter`, `eraseDups_map` : a list without its later repeats, under
  the operations that a graph is read by;
* `Graph.nodes_ofCurriculum`, `Graph.edges_ofCurriculum` : the nodes and the edges of the graph, as
  lists without later repeats; `Graph.length_edges_ofCurriculum` : how many edges there are;
* `Graph.prerequisites_ofCurriculum` : the neighbours before a node are its prerequisites, in their
  order;
* `Graph.dependents_ofCurriculum` : those after it are the nodes that need it, ascending.
-/

namespace Prereq

/-! ## Lists without later repeats -/

section Repeats

variable {α β : Type} [BEq α] [LawfulBEq α] [BEq β] [LawfulBEq β] {xs : List α}

/-- What is added at the end stays, unless it is there already. -/
theorem eraseDups_concat (xs : List α) (x : α) :
    (xs ++ [x]).eraseDups = if x ∈ xs then xs.eraseDups else xs.eraseDups ++ [x] := by
  rw [List.eraseDups_append]
  by_cases hx : x ∈ xs
  · simp [List.removeAll, hx]
  · simp [List.removeAll, hx, List.eraseDups_cons]

theorem nodup_eraseDups (xs : List α) : xs.eraseDups.Nodup := by
  induction xs using List.reverseRecOn with
  | nil => exact List.nodup_nil
  | append_singleton xs x ih =>
    rw [eraseDups_concat]
    split
    next => exact ih
    next hx =>
      rw [← List.concat_eq_append]
      exact ih.concat (mt List.mem_eraseDups.1 hx)

theorem eraseDups_eq_self (h : xs.Nodup) : xs.eraseDups = xs := by
  induction xs with
  | nil => rfl
  | cons x xs ih =>
    obtain ⟨hx, hxs⟩ := List.nodup_cons.1 h
    have hothers : xs.filter (fun y => !y == x) = xs := List.filter_eq_self.2 fun y hy => by
      simpa using ne_of_mem_of_not_mem hy hx
    rw [List.eraseDups_cons, hothers, ih hxs]

theorem eraseDups_filter (p : α → Bool) (xs : List α) :
    (xs.filter p).eraseDups = xs.eraseDups.filter p := by
  induction xs using List.reverseRecOn with
  | nil => rfl
  | append_singleton xs x ih =>
    rw [List.filter_append, eraseDups_concat]
    by_cases hp : p x
    · have hmem : x ∈ xs.filter p ↔ x ∈ xs := List.mem_filter.trans (and_iff_left hp)
      rw [List.filter_cons_of_pos hp, List.filter_nil, eraseDups_concat, ih, if_congr hmem rfl rfl]
      split
      · rfl
      · simp [hp]
    · rw [List.filter_cons_of_neg hp, List.filter_nil, List.append_nil, ih]
      split
      · rfl
      · simp [hp]

/-- Where no two elements have one image, the repeats of images are those of elements. -/
theorem eraseDups_map {f : α → β} (inj : ∀ x ∈ xs, ∀ y ∈ xs, f x = f y → x = y) :
    (xs.map f).eraseDups = xs.eraseDups.map f := by
  induction xs using List.reverseRecOn with
  | nil => rfl
  | append_singleton xs x ih =>
    have hinit : ∀ y ∈ xs, y ∈ xs ++ [x] := fun y hy => List.mem_append_left _ hy
    have himage : f x ∈ xs.map f ↔ x ∈ xs := by
      refine ⟨fun h => ?_, List.mem_map_of_mem⟩
      obtain ⟨y, hy, hyx⟩ := List.mem_map.1 h
      rwa [← inj y (hinit y hy) x (by simp) hyx]
    rw [List.map_append, List.map_singleton, eraseDups_concat, eraseDups_concat,
      ih fun y hy z hz => inj y (hinit y hy) z (hinit z hz), if_congr himage rfl rfl]
    split
    · rfl
    · rw [List.map_append, List.map_singleton]

/-- Copies of distinct elements, side by side, leave the elements of which there is a copy. -/
theorem eraseDups_flatMap_replicate (copies : α → Nat) (h : xs.Nodup) :
    (xs.flatMap fun x => List.replicate (copies x) x).eraseDups =
      xs.filter (0 < copies ·) := by
  induction xs with
  | nil => rfl
  | cons x xs ih =>
    obtain ⟨hx, hxs⟩ := List.nodup_cons.1 h
    rw [List.flatMap_cons]
    cases hk : copies x with
    | zero =>
      rw [List.filter_cons_of_neg (by simp [hk]), ← ih hxs]
      rfl
    | succ k =>
      have hothers : ((List.replicate k x ++ xs.flatMap fun x => List.replicate (copies x) x).filter
          fun y => !y == x) = xs.flatMap fun x => List.replicate (copies x) x := by
        rw [List.filter_append, List.filter_eq_nil_iff.2 (by simp), List.nil_append,
          List.filter_eq_self]
        intro y hy
        obtain ⟨z, hz, hyz⟩ := List.mem_flatMap.1 hy
        obtain rfl := List.eq_of_mem_replicate hyz
        simpa using ne_of_mem_of_not_mem hz hx
      rw [List.replicate_succ, List.cons_append, List.eraseDups_cons, hothers, ih hxs,
        List.filter_cons_of_pos (by simp [hk])]

end Repeats

namespace Graph

variable {g : Graph} {c : Curriculum} {ns : List Node} {es ds : List (Node × Node)} {n m k : Node}

/-! ## What a graph holds -/

theorem addNode_of_mem (h : n ∈ g.nodes) : g.addNode n = g := if_pos h

theorem addEdge_of_mem {e : Node × Node} (hfrom : e.1 ∈ g.nodes) (hto : e.2 ∈ g.nodes)
    (h : e ∈ g.edges) : g.addEdge e = g := by
  simp only [addEdge]
  rw [addNode_of_mem hfrom, addNode_of_mem hto, if_pos h]

theorem addEdge_of_not_mem {e : Node × Node} (h : e ∉ g.edges) :
    g.addEdge e = ⟨((g.addNode e.1).addNode e.2).nodes, g.edges ++ [e]⟩ := by
  simp only [addEdge, edges_addNode]
  exact if_neg h

theorem nodes_addNode (h : g.nodes = ns.eraseDups) (n : Node) :
    (g.addNode n).nodes = (ns ++ [n]).eraseDups := by
  have hmem : n ∈ g.nodes ↔ n ∈ ns := by rw [h, List.mem_eraseDups]
  rw [eraseDups_concat, ← if_congr hmem rfl rfl, ← h]
  unfold addNode
  split <;> rfl

theorem nodes_foldl_addNode (h : g.nodes = ns.eraseDups) (ks : List Node) :
    (ks.foldl addNode g).nodes = (ns ++ ks).eraseDups := by
  induction ks generalizing g ns with
  | nil => rw [List.append_nil]; exact h
  | cons k ks ih => rw [List.foldl_cons, ih (nodes_addNode h k), List.append_assoc]; rfl

theorem edges_addEdge (h : g.edges = es.eraseDups) (e : Node × Node) :
    (g.addEdge e).edges = (es ++ [e]).eraseDups := by
  have hmem : e ∈ g.edges ↔ e ∈ es := by rw [h, List.mem_eraseDups]
  rw [eraseDups_concat, ← if_congr hmem rfl rfl, ← h]
  simp only [addEdge, edges_addNode]
  split
  · rw [edges_addNode, edges_addNode]
  · rfl

theorem edges_foldl_addEdge (h : g.edges = es.eraseDups) (ds : List (Node × Node)) :
    (ds.foldl addEdge g).edges = (es ++ ds).eraseDups := by
  induction ds generalizing g es with
  | nil => rw [List.append_nil]; exact h
  | cons d ds ih => rw [List.foldl_cons, ih (edges_addEdge h d), List.append_assoc]; rfl

theorem nodes_addEdge (h : g.nodes = ns.eraseDups) (e : Node × Node) :
    (g.addEdge e).nodes = (ns ++ [e.1, e.2]).eraseDups := by
  have hends := nodes_addNode (nodes_addNode h e.1) e.2
  rw [List.append_assoc] at hends
  simp only [addEdge]
  split <;> exact hends

theorem nodes_foldl_addEdge (h : g.nodes = ns.eraseDups) (es : List (Node × Node)) :
    (es.foldl addEdge g).nodes = (ns ++ es.flatMap fun e => [e.1, e.2]).eraseDups := by
  induction es generalizing g ns with
  | nil => rw [List.flatMap_nil, List.append_nil]; exact h
  | cons e es ih =>
    rw [List.foldl_cons, ih (nodes_addEdge h e), List.append_assoc, List.flatMap_cons]

/-! ## The graph of a curriculum -/

theorem edges_ofCurriculum (c : Curriculum) : (ofCurriculum c).edges = (edgesOf c).eraseDups := by
  have hstart : (c.nodes.foldl addNode ∅).edges = [].eraseDups := edges_foldl_addNode c.nodes
  exact edges_foldl_addEdge hstart (edgesOf c)

/-- Each edge is there once. -/
theorem length_edges_ofCurriculum (c : Curriculum) :
    (ofCurriculum c).edges.length = Set.ncard {e : Node × Node | e.1 ∈ c.prerequisites e.2} := by
  have hnodup : (ofCurriculum c).edges.Nodup := by
    rw [edges_ofCurriculum]
    exact nodup_eraseDups _
  have hset : {e : Node × Node | e.1 ∈ c.prerequisites e.2} =
      ↑(ofCurriculum c).edges.toFinset := by
    ext e
    simp [mem_edges_ofCurriculum]
  rw [hset, Set.ncard_coe_finset, List.toFinset_card_of_nodup hnodup]

/-- The nodes of the curriculum come first, ascending, and then those that are only mentioned. -/
theorem nodes_ofCurriculum (c : Curriculum) : (ofCurriculum c).nodes =
    c.nodes ++ ((c.nodes.flatMap c.prerequisites).filter (· ∉ c.nodes)).eraseDups := by
  have hempty : (∅ : Graph).nodes = ([] : List Node).eraseDups := rfl
  have hstart : (c.nodes.foldl addNode ∅).nodes = c.nodes.eraseDups :=
    nodes_foldl_addNode hempty c.nodes
  have hends : ((edgesOf c).flatMap fun e => [e.1, e.2]).filter (· ∉ c.nodes) =
      (c.nodes.flatMap c.prerequisites).filter (· ∉ c.nodes) := by
    rw [edgesOf, List.flatMap_assoc, List.filter_flatMap, List.filter_flatMap]
    refine List.flatMap_congr fun n hn => ?_
    rw [List.flatMap_map]
    induction c.prerequisites n with
    | nil => rfl
    | cons m ms ih =>
      rw [List.flatMap_cons, List.filter_append, ih]
      by_cases hm : m ∈ c.nodes <;> simp [hm, hn]
  unfold ofCurriculum
  rw [nodes_foldl_addEdge hstart, List.eraseDups_append, eraseDups_eq_self c.nodup_nodes, ← hends]
  simp [List.removeAll]

theorem filter_edgesOf_snd (c : Curriculum) (n : Node) :
    ((edgesOf c).filter (·.2 = n)).map (·.1) = c.prerequisites n := by
  have hone : ∀ k, (((c.prerequisites k).map fun m => (m, k)).filter (·.2 = n)).map (·.1) =
      if k = n then c.prerequisites k else [] := by
    intro k
    by_cases hk : k = n <;> simp [hk, List.filter_map, Function.comp_def]
  rw [edgesOf, List.filter_flatMap, List.map_flatMap]
  simp only [hone]
  by_cases hn : n ∈ c.nodes
  · obtain ⟨before, after, hnodes⟩ := List.append_of_mem hn
    have hnodup := c.nodup_nodes
    rw [hnodes, List.nodup_middle, List.nodup_cons, List.mem_append, not_or] at hnodup
    have hothers : ∀ ks : List Node, n ∉ ks →
        (ks.flatMap fun k => if k = n then c.prerequisites k else []) = [] := fun ks hks =>
      List.flatMap_eq_nil_iff.2 fun k hk => if_neg (ne_of_mem_of_not_mem hk hks)
    rw [hnodes, List.flatMap_append, List.flatMap_cons, hothers before hnodup.1.1,
      hothers after hnodup.1.2, if_pos rfl, List.nil_append, List.append_nil]
  · rw [Curriculum.prerequisites_of_not_mem hn]
    exact List.flatMap_eq_nil_iff.2 fun k hk => if_neg (ne_of_mem_of_not_mem hk hn)

theorem filter_edgesOf_fst (c : Curriculum) (m : Node) :
    ((edgesOf c).filter (·.1 = m)).map (·.2) =
      c.nodes.flatMap fun n => List.replicate ((c.prerequisites n).count m) n := by
  rw [edgesOf, List.filter_flatMap, List.map_flatMap]
  refine List.flatMap_congr fun n _ => ?_
  simp [List.filter_map, Function.comp_def, List.filter_eq]

/-- The neighbours before a node are its prerequisites without later repeats, in their order. -/
theorem prerequisites_ofCurriculum (c : Curriculum) (n : Node) :
    (ofCurriculum c).prerequisites n = (c.prerequisites n).eraseDups := by
  unfold prerequisites
  rw [edges_ofCurriculum, ← eraseDups_filter, ← eraseDups_map, filter_edgesOf_snd]
  simp only [List.mem_filter, decide_eq_true_eq]
  rintro d ⟨-, rfl⟩ e ⟨-, he⟩ h
  exact Prod.ext h he.symm

/-- The neighbours after a node are the nodes that have it among their prerequisites, ascending. -/
theorem dependents_ofCurriculum (c : Curriculum) (m : Node) :
    (ofCurriculum c).dependents m = c.nodes.filter (m ∈ c.prerequisites ·) := by
  unfold dependents
  rw [edges_ofCurriculum, ← eraseDups_filter, ← eraseDups_map, filter_edgesOf_fst,
    eraseDups_flatMap_replicate _ c.nodup_nodes]
  · simp only [List.count_pos_iff]
  · simp only [List.mem_filter, decide_eq_true_eq]
    rintro d ⟨-, rfl⟩ e ⟨-, he⟩ h
    exact Prod.ext he.symm h

end Graph

end Prereq
