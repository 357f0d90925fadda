import Prereq.Connective
import Prereq.Node

/-!
# Requirements

A requirement says which nodes come before a node: a single node, or a group of requirements that
are all needed or of which any one is enough.

* `Requirement` : the tree, with the induction principle `Requirement.induct`;
* `Requirement.fold` : recursion on the tree (`fold_node`, `fold_group`);
* `Requirement.connective?`, `Requirement.leaves`, `Requirement.mapNodes`;
* `Requirement.ofParts?` : the group of some parts, where one part needs no group and no part
  gives nothing.
-/

namespace Prereq

/-- What has to be known before a node. -/
inductive Requirement where
  /-- A single node. -/
  | node (n : Node)
  /-- All or any of some parts, in order. -/
  | group (c : Connective) (parts : List Requirement)
  deriving Repr

namespace Requirement

/-- To prove a property of all requirements, prove it of nodes, and of a group whose parts have
it. -/
@[induction_eliminator]
theorem induct {motive : Requirement → Prop} (node : ∀ n, motive (.node n))
    (group : ∀ c parts, (∀ p ∈ parts, motive p) → motive (.group c parts)) (r : Requirement) :
    motive r :=
  @Requirement.rec.{0} motive (fun parts => ∀ p ∈ parts, motive p) node group (fun _ h => nomatch h)
    (fun _ _ hp hps q hq => (List.mem_cons.1 hq).elim (fun h => h ▸ hp) (hps q)) r

/-! ## Equality -/

mutual

/-- Equality of requirements is decided part by part. -/
def decideEq : (a b : Requirement) → Decidable (a = b)
  | .node m, .node n =>
    if h : m = n then .isTrue (h ▸ rfl) else .isFalse fun e => h (Requirement.node.inj e)
  | .group c ps, .group d qs =>
    if hc : c = d then
      match decideEqAll ps qs with
      | .isTrue h => .isTrue (hc ▸ h ▸ rfl)
      | .isFalse h => .isFalse fun e => h (Requirement.group.inj e).2
    else .isFalse fun e => hc (Requirement.group.inj e).1
  | .node _, .group _ _ => .isFalse nofun
  | .group _ _, .node _ => .isFalse nofun

/-- Equality of lists of requirements. -/
def decideEqAll : (ps qs : List Requirement) → Decidable (ps = qs)
  | [], [] => .isTrue rfl
  | p :: ps, q :: qs =>
    match decideEq p q, decideEqAll ps qs with
    | .isTrue h, .isTrue hs => .isTrue (h ▸ hs ▸ rfl)
    | .isFalse h, _ => .isFalse fun e => h (List.cons.inj e).1
    | _, .isFalse hs => .isFalse fun e => hs (List.cons.inj e).2
  | [], _ :: _ => .isFalse nofun
  | _ :: _, [] => .isFalse nofun

end

instance : DecidableEq Requirement := decideEq

/-! ## Recursion -/

mutual

/-- Replace nodes by `node` and groups by `group`, from the leaves up. -/
def fold {α : Type u} (node : Node → α) (group : Connective → List α → α) : Requirement → α
  | .node n => node n
  | .group c parts => group c (foldParts node group parts)

/-- The results of `fold` on some parts. -/
def foldParts {α : Type u} (node : Node → α) (group : Connective → List α → α) :
    List Requirement → List α
  | [] => []
  | p :: parts => fold node group p :: foldParts node group parts

end

section Fold

variable {α : Type u} (node : Node → α) (group : Connective → List α → α)

@[simp] theorem foldParts_eq_map (parts : List Requirement) :
    foldParts node group parts = parts.map (fold node group) := by
  induction parts with
  | nil => rfl
  | cons p parts ih => rw [foldParts, ih, List.map_cons]

@[simp] theorem fold_node (n : Node) : fold node group (.node n) = node n := rfl

@[simp] theorem fold_group (c : Connective) (parts : List Requirement) :
    fold node group (.group c parts) = group c (parts.map (fold node group)) := by
  rw [fold, foldParts_eq_map]

end Fold

/-! ## Views and maps -/

/-- The connective of a group; a single node has none. -/
def connective? : Requirement → Option Connective
  | .node _ => none
  | .group c _ => some c

/-- The nodes of a requirement from left to right, with repetitions. -/
def leaves : Requirement → List Node := fold (fun n => [n]) fun _ parts => parts.flatten

/-- Replace every node, keeping the shape. -/
def mapNodes (f : Node → Node) : Requirement → Requirement := fold (fun n => .node (f n)) .group

/-- The requirement made of some parts: no part gives nothing and one part stands for itself. -/
def ofParts? (c : Connective) : List Requirement → Option Requirement
  | [] => none
  | [p] => some p
  | parts => some (.group c parts)

@[simp] theorem connective?_node (n : Node) : (Requirement.node n).connective? = none := rfl

@[simp] theorem connective?_group (c : Connective) (parts : List Requirement) :
    (group c parts).connective? = some c := rfl

@[simp] theorem leaves_node (n : Node) : (Requirement.node n).leaves = [n] := rfl

@[simp] theorem leaves_group (c : Connective) (parts : List Requirement) :
    (group c parts).leaves = parts.flatMap leaves := by
  simp [leaves, List.flatMap_def]

@[simp] theorem mapNodes_node (f : Node → Node) (n : Node) :
    (Requirement.node n).mapNodes f = .node (f n) := rfl

@[simp] theorem mapNodes_group (f : Node → Node) (c : Connective) (parts : List Requirement) :
    (group c parts).mapNodes f = .group c (parts.map (mapNodes f)) := by
  simp [mapNodes]

end Requirement

end Prereq
