import Prereq.Proofs.Links.Circuits
import Prereq.Proofs.Links.Walk

/-!
# What a search for circles finds

* `Links.Searched` : what a search that meets no circle makes of the finished nodes
  (`searched_of_search`);
* `Links.circuit_of_search` : a search that does meet one ends at a circuit;
* `Links.checkFrom_eq_ok_iff`, `Links.circuit_of_checkFrom` : the check passes just where no circle
  can be reached, and else reports one that can.

The path makes the circle that is reported. That none is missed follows from the finished nodes, whose
targets are all finished before them.
-/

namespace Prereq.Links

variable {l : Links} {path finished finished' : List Node} {n : Node} {c : Circle}

/-! ## Searching in depth -/

theorem search_of_finished (h : n ∈ finished) : l.search path finished n = .ok finished := by
  rw [search, if_pos h]

theorem search_of_path (new : n ∉ finished) (h : n ∈ path) :
    l.search path finished n = .error (Circle.close path n) := by
  rw [search, if_neg new, if_pos h]

/-- A new node is finished after its targets. -/
theorem search_of_new (new : n ∉ finished) (off : n ∉ path) :
    l.search path finished n =
      (n :: ·) <$> (l.next n).foldlM (fun finished m => l.search (n :: path) finished m) finished := by
  rw [search, if_neg new, if_neg off]
  by_cases hsource : n ∈ l.sources
  · rw [if_pos hsource, next_of_mem hsource]
  · rw [if_neg hsource, next_of_not_mem hsource]
    rfl

/-- What a search from the nodes `ns` that meets no circle makes of the finished nodes. -/
structure Searched (l : Links) (ns finished finished' : List Node) : Prop where
  keeps : finished ⊆ finished'
  enters : ns ⊆ finished'
  /-- Nodes are finished only where no circle can be reached. -/
  clear : (∀ k ∈ finished, l.Clear k) → ∀ k ∈ finished', l.Clear k

theorem Searched.cons {ns f g h : List Node} (hn : l.Searched [n] f g) (hns : l.Searched ns g h) :
    l.Searched (n :: ns) f h where
  keeps := List.Subset.trans hn.keeps hns.keeps
  enters := List.cons_subset.2 ⟨hns.keeps (hn.enters (List.mem_singleton_self n)), hns.enters⟩
  clear hf := hns.clear (hn.clear hf)

theorem searched_nil (l : Links) (finished : List Node) : l.Searched [] finished finished :=
  ⟨List.Subset.refl _, List.nil_subset _, id⟩

/-- A node is finished after its targets. -/
theorem Searched.finish {f g : List Node} (h : l.Searched (l.next n) f g) :
    l.Searched [n] f (n :: g) where
  keeps := List.subset_cons_of_subset n h.keeps
  enters := List.cons_subset.2 ⟨List.mem_cons_self, List.nil_subset _⟩
  clear hf := List.forall_mem_cons.2
    ⟨clear_iff_next.2 fun m hm => h.clear hf m (h.enters hm), h.clear hf⟩

theorem searched_of_search (h : l.search path finished n = .ok finished') :
    l.Searched [n] finished finished' := by
  induction path, finished, n using walk_induction (l := l) generalizing finished' with
  | met path f n hmet =>
    by_cases hmem : n ∈ f
    · rw [search_of_finished hmem] at h
      cases h
      exact ⟨List.Subset.refl _, List.cons_subset.2 ⟨hmem, List.nil_subset _⟩, id⟩
    · rw [search_of_path hmem (hmet.resolve_left hmem)] at h
      cases h
  | new path f n hnew hoff ih =>
    rw [search_of_new hnew hoff] at h
    obtain ⟨g, hg, rfl⟩ := Except.map_eq_ok_iff.1 h
    exact .finish (Except.foldlM_eq_ok (searched_nil l) (fun _ _ _ _ _ => .cons)
      (fun m hm f f' hf => ih f m hm hf) hg)

/-- A search along a path without repetitions ends at a circuit of nodes that are on the path, or are
met from there on. -/
theorem circuit_of_search (hchain : (n :: path).IsChain fun m k => l.Step k m) (hpath : path.Nodup)
    (h : l.search path finished n = .error c) :
    l.Circuit c.chain ∧ ∀ k ∈ c.chain, k ∈ n :: path ∨ l.Reaches n k := by
  induction path, finished, n using walk_induction (l := l) with
  | met path f n hmet =>
    by_cases hmem : n ∈ f
    · rw [search_of_finished hmem] at h
      cases h
    · have hback := hmet.resolve_left hmem
      rw [search_of_path hmem hback] at h
      cases h
      exact ⟨circuit_close hchain hpath hback, fun k hk =>
        .inl (List.mem_cons_of_mem n (mem_of_mem_close hback hk))⟩
  | new path f n hnew hoff ih =>
    rw [search_of_new hnew hoff] at h
    obtain ⟨m, hm, g, hg⟩ := Except.exists_of_foldlM_eq_error (Except.map_eq_error_iff.1 h)
    have hnm : l.Reaches n m := Reaches.of_next hm
    obtain ⟨hcircuit, hmet⟩ :=
      ih g m hm (List.IsChain.cons_cons hm hchain) (List.nodup_cons.2 ⟨hoff, hpath⟩) hg
    refine ⟨hcircuit, fun k hk => ?_⟩
    rcases hmet k hk with hk | hk
    · rcases List.mem_cons.1 hk with rfl | hk
      · exact .inr hnm
      · exact .inl hk
    · exact .inr (hnm.trans hk)

/-! ## The check -/

/-- The circle that the check reports can be reached from the node. -/
theorem circuit_of_checkFrom (h : l.checkFrom n = .error c) :
    l.Circuit c.chain ∧ ∀ k ∈ c.chain, n = k ∨ l.Reaches n k := by
  obtain ⟨hcircuit, hmet⟩ := circuit_of_search (List.isChain_singleton n) List.nodup_nil
    (Except.map_eq_error_iff.1 h)
  exact ⟨hcircuit, fun k hk => (hmet k hk).imp_left fun hk => (List.mem_singleton.1 hk).symm⟩

theorem checkFrom_eq_ok_iff : l.checkFrom n = .ok () ↔ l.Clear n := by
  cases h : l.checkFrom n with
  | error c =>
    obtain ⟨hcircuit, hmet⟩ := circuit_of_checkFrom h
    obtain ⟨k, hk⟩ := hcircuit.exists_mem
    exact iff_of_false nofun (hcircuit.not_clear hk (hmet k hk))
  | ok _ =>
    obtain ⟨finished, hsearch, -⟩ := Except.map_eq_ok_iff.1 h
    have hsearched := searched_of_search hsearch
    exact iff_of_true rfl (hsearched.clear (List.forall_mem_nil _) n
      (hsearched.enters (List.mem_singleton_self n)))

end Prereq.Links
