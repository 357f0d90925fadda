import Mathlib.Tactic.TFAE
import Prereq.Proofs.Graph.Order
import Prereq.Proofs.Links.Circles
import Prereq.Proofs.Links.Search

/-!
# Circles in a curriculum

* `Curriculum.checkEdit_eq_ok_iff`, `Curriculum.checkEdit_exact` : an edit passes the check just if no
  circle could be reached from the edited node, and else such a circle is reported;
  `Curriculum.NeedsAfter` : what nodes would need after the edit;
* `Curriculum.acyclic_insert_iff` : in an acyclic curriculum this is enough to keep it acyclic;
* `Curriculum.attempt`, `Curriculum.ofAttempts` : edits that are made only if they pass the check;
  `Curriculum.ofAttempts_teachable` : any run of them leaves a curriculum without circles;
* `Curriculum.circles_tfae` : the teaching order, the check and the table of ancestors find circles
  in the same curricula.
-/

namespace Prereq.Curriculum

variable {c : Curriculum} {n m k : Node} {ms : List Node} {e : Node × List Node}

/-! ## The check of an edit -/

theorem checkEdit_eq_ok_iff : c.checkEdit n ms = .ok () ↔ (c.insert n ms).Clear n := by
  unfold checkEdit
  rw [Links.checkFrom_eq_ok_iff, clear_links]

theorem exists_checkEdit_eq_error_iff :
    (∃ x, c.checkEdit n ms = .error x) ↔ ¬ (c.insert n ms).Clear n := by
  rw [Except.exists_eq_error_iff, ← checkEdit_eq_ok_iff]
  exact not_congr ⟨fun ⟨_, h⟩ => h, fun h => ⟨(), h⟩⟩

/-- Node `k` needs `m` once `ms` are the prerequisites of `n`, all others being what they were. -/
def NeedsAfter (c : Curriculum) (n : Node) (ms : List Node) (k m : Node) : Prop :=
  m ∈ if k = n then ms else c.prerequisites k

theorem mem_prerequisites_insert : m ∈ (c.insert n ms).prerequisites k ↔ c.NeedsAfter n ms k m := by
  rw [prerequisites_insert, NeedsAfter]
  simp only [eq_comm (a := n)]

theorem buildsOn_insert_iff :
    (c.insert n ms).BuildsOn k m ↔ Relation.TransGen (c.NeedsAfter n ms) k m := by
  unfold BuildsOn
  simp only [mem_prerequisites_insert]

theorem eq_or_buildsOn_insert_iff : n = k ∨ (c.insert n ms).BuildsOn n k ↔
    Relation.ReflTransGen (c.NeedsAfter n ms) n k := by
  rw [buildsOn_insert_iff, Relation.reflTransGen_iff_eq_or_transGen, eq_comm]

/-- **The check of an edit.** It passes just if the edited node would lead to no node that needs
itself, directly or not. If it does not pass, it reports a chain: each node of it would need the next
one, it ends where it starts and meets no other node twice, and the edited node would lead to it. -/
theorem checkEdit_exact (c : Curriculum) (n : Node) (ms : List Node) :
    (c.checkEdit n ms = .ok () ↔ ∀ k, Relation.ReflTransGen (c.NeedsAfter n ms) n k →
      ¬ Relation.TransGen (c.NeedsAfter n ms) k k) ∧
    ∀ x, c.checkEdit n ms = .error x →
      x.chain.IsChain (c.NeedsAfter n ms) ∧ 2 ≤ x.chain.length ∧
      x.chain.head? = x.chain.getLast? ∧ x.chain.dropLast.Nodup ∧
      ∀ k ∈ x.chain, Relation.ReflTransGen (c.NeedsAfter n ms) n k := by
  refine ⟨?_, fun x h => ?_⟩
  · rw [checkEdit_eq_ok_iff]
    exact forall_congr' fun k => imp_congr eq_or_buildsOn_insert_iff (not_congr buildsOn_insert_iff)
  · obtain ⟨hcircuit, hmet⟩ := Links.circuit_of_checkFrom h
    obtain ⟨hneeds, hmoves, hclosed, honce⟩ := circuit_links.1 hcircuit
    refine ⟨hneeds.imp fun _ _ => mem_prerequisites_insert.1, hmoves, hclosed, honce,
      fun k hk => ?_⟩
    exact eq_or_buildsOn_insert_iff.1 ((hmet k hk).imp_right reaches_links.1)

/-- Nodes 1, 2 and 3 form a circle, and node 4 is passed on the way. -/
def lasso : Curriculum := .ofList [(1, [4, 3]), (2, [1]), (3, [4, 2])]

/-- Node 5 would lead into the circle without being on it. -/
theorem checkEdit_exact_lasso : lasso.checkEdit 5 [4, 3] = .error ⟨[3, 2, 1, 3]⟩ ∧
    [3, 2, 1, 3].IsChain (lasso.NeedsAfter 5 [4, 3]) ∧
    Relation.ReflTransGen (lasso.NeedsAfter 5 [4, 3]) 5 3 ∧
    ¬ (∀ k, Relation.ReflTransGen (lasso.NeedsAfter 5 [4, 3]) 5 k →
      ¬ Relation.TransGen (lasso.NeedsAfter 5 [4, 3]) k k) ∧
    ∀ k, Relation.ReflTransGen (lasso.NeedsAfter 5 [4]) 5 k →
      ¬ Relation.TransGen (lasso.NeedsAfter 5 [4]) k k := by
  obtain ⟨hok, herror⟩ := checkEdit_exact lasso 5 [4, 3]
  have hcheck : lasso.checkEdit 5 [4, 3] = .error ⟨[3, 2, 1, 3]⟩ := by decide +kernel
  obtain ⟨hchain, -, -, -, hmet⟩ := herror _ hcheck
  refine ⟨hcheck, hchain, hmet 3 (by decide), fun h => ?_, ?_⟩
  · have hpasses := hok.2 h
    rw [hcheck] at hpasses
    cases hpasses
  · exact (checkEdit_exact lasso 5 [4]).1.1 (by decide +kernel)

/-- What a node builds on after an edit, it built on before, or the edited node builds on it. -/
theorem buildsOn_insert (h : (c.insert n ms).BuildsOn k m) :
    c.BuildsOn k m ∨ (c.insert n ms).BuildsOn n m := by
  have hstep : ∀ x y, y ∈ (c.insert n ms).prerequisites x →
      y ∈ c.prerequisites x ∨ (c.insert n ms).BuildsOn n y := by
    intro x y hy
    by_cases hx : n = x
    · exact .inr (.single (hx ▸ hy))
    · rw [prerequisites_insert, if_neg hx] at hy
      exact .inl hy
  induction h with
  | single hy => exact (hstep _ _ hy).imp_left .single
  | tail _ hz ih =>
    rcases ih with hy | hy
    · exact (hstep _ _ hz).imp_left hy.tail
    · exact .inr (hy.tail hz)

/-- In an acyclic curriculum only circles through the edited node can close. -/
theorem acyclic_insert_iff (hc : c.Acyclic) :
    (c.insert n ms).Acyclic ↔ (c.insert n ms).Clear n := by
  refine ⟨fun h m _ => h m, fun h m hm => ?_⟩
  rcases buildsOn_insert hm with hold | hnew
  · exact hc m hold
  · exact h m (.inr hnew) hm

/-! ## Guarded edits -/

/-- Give a node new prerequisites, provided that the check passes. -/
def attempt (c : Curriculum) (e : Node × List Node) : Curriculum :=
  match c.checkEdit e.1 e.2 with
  | .ok _ => c.insert e.1 e.2
  | .error _ => c

/-- The curriculum that attempted edits lead to, from the one without nodes. -/
def ofAttempts (edits : List (Node × List Node)) : Curriculum := edits.foldl attempt ∅

theorem acyclic_empty : (∅ : Curriculum).Acyclic := by
  have hnext : ∀ n, (∅ : Curriculum).prerequisites n = [] := fun n => by
    show ((∅ : Std.TreeMap Node (List Node))[n]?).getD [] = []
    simp
  intro n hn
  obtain ⟨m, hm, -⟩ := Relation.TransGen.head'_iff.1 hn
  rw [hnext] at hm
  cases hm

theorem acyclic_attempt (hc : c.Acyclic) (e : Node × List Node) : (c.attempt e).Acyclic := by
  unfold attempt
  split
  next u h => exact (acyclic_insert_iff hc).2 (checkEdit_eq_ok_iff.1 h)
  next x h => exact hc

theorem acyclic_foldl_attempt (hc : c.Acyclic) (edits : List (Node × List Node)) :
    (edits.foldl attempt c).Acyclic := by
  induction edits generalizing c with
  | nil => exact hc
  | cons e edits ih => exact ih (acyclic_attempt hc e)

/-- **Guarded edits.** Whatever edits are attempted, the curriculum stays acyclic: there is always a
teaching order, and no node is recorded as its own ancestor. No further edit is refused that would
keep it so. -/
theorem ofAttempts_teachable (edits : List (Node × List Node)) :
    (ofAttempts edits).Acyclic ∧
    (∃ order, (Graph.ofCurriculum (ofAttempts edits)).order = .ok order) ∧
    (∀ n, ¬ (ofAttempts edits).ancestors.isAncestor n n) ∧
    ∀ n ms, (ofAttempts edits).checkEdit n ms = .ok () ↔
      ((ofAttempts edits).insert n ms).Acyclic := by
  have hacyclic : (ofAttempts edits).Acyclic := acyclic_foldl_attempt acyclic_empty edits
  have hlinks : (ofAttempts edits).links.Acyclic := acyclic_links.2 hacyclic
  refine ⟨hacyclic, Graph.exists_order_iff.2 hacyclic, Links.acyclic_iff_isAncestor.1 hlinks, ?_⟩
  intro n ms
  rw [checkEdit_eq_ok_iff, acyclic_insert_iff hacyclic]

/-! ## Finding circles -/

/-- Checking a node with the prerequisites it has looks at the curriculum as it is. -/
theorem clear_insert_prerequisites : (c.insert n (c.prerequisites n)).Clear m ↔ c.Clear m := by
  have hsame : (c.insert n (c.prerequisites n)).prerequisites = c.prerequisites := by
    funext k
    rw [prerequisites_insert]
    split
    next h => rw [h]
    next h => rfl
  unfold Clear BuildsOn
  rw [hsame]

theorem mem_nodes_of_buildsOn (h : c.BuildsOn n m) : n ∈ c.nodes :=
  (reaches_links.2 h).mem_sources

theorem acyclic_iff_nodes_clear : c.Acyclic ↔ ∀ n ∈ c.nodes, c.Clear n :=
  ⟨fun hc _ _ m _ => hc m, fun h n hn => h n (mem_nodes_of_buildsOn hn) n (.inl rfl) hn⟩

/-- **Finding circles.** A curriculum has a circle just if there is no teaching order, just if the
check refuses the prerequisites that some node has, and just if some node is recorded as its own
ancestor. -/
theorem circles_tfae (c : Curriculum) : List.TFAE
    [¬ c.Acyclic,
      ∃ x, (Graph.ofCurriculum c).order = .error x,
      ∃ n ∈ c.nodes, ∃ x, c.checkEdit n (c.prerequisites n) = .error x,
      ∃ n, c.ancestors.isAncestor n n] := by
  tfae_have 2 ↔ 1 := Graph.exists_order_eq_error_iff
  tfae_have 3 ↔ 1 := by
    rw [acyclic_iff_nodes_clear]
    push Not
    simp only [exists_checkEdit_eq_error_iff, clear_insert_prerequisites]
  tfae_have 4 ↔ 1 := by
    rw [← acyclic_links, Links.acyclic_iff_isAncestor]
    push Not
    rfl
  tfae_finish

end Prereq.Curriculum
