import Prereq.Links.Circle
import Prereq.Proofs.Links.Knots

/-!
# Circles without a detour

* `Links.Circuit` : a closed walk that meets no node twice before it is back;
* `Links.circuit_close` : a path without repetitions that leads back to one of its nodes is closed
  to such a walk;
* `Links.Circuit.reverse` : turned round, it follows the links turned round;
* `Links.Circuit.not_clear` : no node from which it can be reached is clear.
-/

namespace Prereq.Links

variable {l l' : Links} {path walk ns : List Node} {n m k : Node}

/-- A closed walk that meets no node twice before it is back where it starts. -/
structure Circuit (l : Links) (walk : List Node) : Prop extends l.ClosedWalk walk where
  once : walk.dropLast.Nodup

theorem reverse_closed (n : Node) (ns : List Node) :
    (n :: (ns ++ [n])).reverse = n :: (ns.reverse ++ [n]) := by
  rw [List.reverse_cons, List.reverse_append, List.reverse_singleton, List.singleton_append,
    List.cons_append]

theorem circuit_iff : l.Circuit (n :: (ns ++ [n])) ↔
    (n :: (ns ++ [n])).IsChain l.Step ∧ (n :: ns).Nodup := by
  have hsplit : n :: (ns ++ [n]) = n :: ns ++ [n] := rfl
  have hlast : (n :: (ns ++ [n])).dropLast = n :: ns := by rw [hsplit, List.dropLast_concat]
  constructor
  · intro h
    exact ⟨h.chain, hlast ▸ h.once⟩
  · rintro ⟨hchain, honce⟩
    refine ⟨⟨hchain, by simp, ?_⟩, hlast.symm ▸ honce⟩
    rw [hsplit, List.getLast?_concat, ← hsplit, List.head?_cons]

/-! ## Closing a path -/

/-- A path up to and including the first occurrence of one of its nodes. -/
theorem takeWhile_append_prefix (h : n ∈ path) : path.takeWhile (· ≠ n) ++ [n] <+: path := by
  induction path with
  | nil => cases h
  | cons m path ih =>
    by_cases hm : m = n
    · subst hm
      simp
    · rw [List.takeWhile_cons_of_pos (by simpa using hm), List.cons_append, List.cons_prefix_cons]
      exact ⟨rfl, ih ((List.mem_cons.1 h).resolve_left (Ne.symm hm))⟩

theorem mem_of_mem_close (h : n ∈ path) (hk : k ∈ (Circle.close path n).chain) : k ∈ path := by
  have hclosed : k = n ∨ k ∈ path.takeWhile (· ≠ n) := by
    simpa [Circle.close, or_comm, or_assoc] using hk
  rcases hclosed with rfl | hk
  · exact h
  · exact (List.takeWhile_prefix _).subset hk

/-- A path, given from its end back to its start, that leads back to its node `n` is closed there. -/
theorem circuit_close (hchain : (n :: path).IsChain fun m k => l.Step k m) (hpath : path.Nodup)
    (h : n ∈ path) : l.Circuit (Circle.close path n).chain := by
  have hprefix := takeWhile_append_prefix h
  set passed := path.takeWhile (· ≠ n) with hpassed
  have hclosed : (n :: (passed ++ [n])).IsChain fun m k => l.Step k m :=
    hchain.prefix (List.cons_prefix_cons.2 ⟨rfl, hprefix⟩)
  have honce : (passed ++ [n]).Nodup := hpath.sublist hprefix.sublist
  refine circuit_iff.2 ⟨?_, ?_⟩
  · rw [← reverse_closed]
    exact List.isChain_reverse.2 hclosed
  · rw [← hpassed, List.nodup_cons, List.mem_reverse, List.nodup_reverse, ← List.nodup_cons]
    exact List.nodup_append_comm.1 honce

/-! ## Turning round -/

/-- A circuit of the links that lead the other way. -/
theorem Circuit.reverse (hconverse : ∀ n m, m ∈ l.next n ↔ n ∈ l'.next m) (h : l.Circuit walk) :
    l'.Circuit walk.reverse := by
  obtain ⟨k, ns, rfl⟩ := h.exists_eq
  obtain ⟨hchain, honce⟩ := circuit_iff.1 h
  rw [reverse_closed]
  refine circuit_iff.2 ⟨?_, ?_⟩
  · rw [← reverse_closed]
    exact List.isChain_reverse.2 (hchain.imp fun n m => (hconverse n m).1)
  · rwa [List.nodup_cons, List.mem_reverse, List.nodup_reverse, ← List.nodup_cons]

/-! ## What leads to a circuit -/

theorem Circuit.not_clear (h : l.Circuit walk) (hk : k ∈ walk) (hn : n = k ∨ l.Reaches n k) :
    ¬ l.Clear n :=
  fun hclear => hclear k hn (h.knot.reaches hk hk)

theorem Circuit.exists_mem (h : l.Circuit walk) : ∃ k, k ∈ walk := by
  obtain ⟨k, ns, rfl⟩ := h.exists_eq
  exact ⟨k, List.mem_cons_self⟩

end Prereq.Links
