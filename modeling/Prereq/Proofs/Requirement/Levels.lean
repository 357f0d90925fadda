import Prereq.Proofs.Requirement.Reading
import Prereq.Proofs.Requirement.Written

/-!
# Reading within a level

Balanced tokens leave the levels around them as they are, so that reading them is a map from
levels to levels.

* `Reading.Level.read` : a level after some balanced tokens (`Reading.run_balanced`,
  `Reading.Level.read_append`, `Reading.Level.read_group`);
* `Reading.value_read_balanced`, `Reading.read?_write` : what a whole text holds, read in one level;
* `Reading.Level.value_read_joinTokens` : parts that are read as one operand each make a group.
-/

namespace Prereq

namespace Reading

open Token (Balanced)
open Requirement (append joinTokens)

variable {ts us : List Token} {l : Level}

theorem run_append (s : Reading) (ts us : List Token) :
    s.run (ts ++ us) = (s.run ts).run us := List.foldl_append

theorem run_cons (s : Reading) (t : Token) (ts : List Token) :
    s.run (t :: ts) = (s.step t).run ts := rfl

/-! ## Balanced tokens -/

/-- What becomes of a level when some tokens are read that close only what they have opened. -/
def Level.read (l : Level) (ts : List Token) : Level := (run ⟨l, []⟩ ts).inner

theorem exists_run_balanced (h : Balanced ts) (l : Level) :
    ∃ l' : Level, ∀ outer, run ⟨l, outer⟩ ts = ⟨l', outer⟩ := by
  induction h generalizing l with
  | nil => exact ⟨l, fun _ => rfl⟩
  | connective c _ ih => exact ih (l.connective c)
  | node n _ ih => exact ih (l.operand (some (.node n)))
  | group _ _ ihts ihus =>
    obtain ⟨inner, hinner⟩ := ihts Level.start
    obtain ⟨l', hl'⟩ := ihus (l.operand inner.value)
    refine ⟨l', fun outer => ?_⟩
    rw [run_cons, run_append]
    show run (run ⟨Level.start, l :: outer⟩ _) _ = _
    rw [hinner]
    exact hl' outer

/-- The levels around balanced tokens play no part. -/
theorem run_balanced (h : Balanced ts) (l : Level) (outer : List Level) :
    run ⟨l, outer⟩ ts = ⟨l.read ts, outer⟩ := by
  obtain ⟨l', hl'⟩ := exists_run_balanced h l
  rw [Level.read, hl', hl']

theorem value_read_balanced (h : Balanced ts) :
    Requirement.ofTokens? ts = (Level.start.read ts).value := by
  rw [Requirement.ofTokens?, start, run_balanced h]
  rfl

/-- Balanced tokens can be written and read, if all their parentheses count. -/
theorem read?_write (h : Balanced ts) (hdepth : Token.nesting ts ≤ Token.nestingLimit) :
    Requirement.read? (String.ofList (Token.write ts)) = (Level.start.read ts).value := by
  rw [Requirement.read?, Token.ofText, String.toList_ofList, Token.scan_write,
    Token.limitNesting_eq_self h hdepth, value_read_balanced h]

namespace Level

@[simp] theorem read_nil (l : Level) : l.read [] = l := rfl

@[simp] theorem read_connective (l : Level) (c : Connective) (ts : List Token) :
    l.read (.connective c :: ts) = (l.connective c).read ts := rfl

@[simp] theorem read_node (l : Level) (n : Node) (ts : List Token) :
    l.read (.node n :: ts) = (l.operand (some (.node n))).read ts := rfl

theorem read_append (h : Balanced ts) (l : Level) (us : List Token) :
    l.read (ts ++ us) = (l.read ts).read us := by
  rw [read, run_append, run_balanced h]
  rfl

/-- A group in parentheses is one operand. -/
theorem read_group (h : Balanced ts) (l : Level) (us : List Token) :
    l.read (.opening :: (ts ++ .closing :: us)) = (l.operand (start.read ts).value).read us := by
  rw [read, run_cons, run_append]
  show (run (run ⟨start, [l]⟩ ts) _).inner = _
  rw [run_balanced h]
  rfl

theorem read_parentheses (h : Balanced ts) (l : Level) :
    l.read (.opening :: ts ++ [.closing]) = l.operand (start.read ts).value := read_group h l []

/-! ## Parts of a group -/

/-- Before a part of a group with connective `c`; under OR a part begins an alternative. -/
def Ready (c : Connective) (l : Level) : Prop := c = .any → l.current = none

theorem ready_start (c : Connective) : start.Ready c := fun _ => rfl

variable {α : Type u} {c : Connective} {parts : List α} {f : α → List Token}
  {g : α → Requirement}

/-- More operands under AND. -/
theorem read_all_parts {before : Option Requirement} {r : Requirement}
    (balanced : ∀ p ∈ parts, Balanced (f p))
    (h : ∀ p ∈ parts, ∀ l : Level, l.Ready .all → l.read (f p) = l.operand (some (g p))) :
    Level.read ⟨before, some r, false⟩ ((parts.map f).flatMap (.connective .all :: ·)) =
      ⟨before, some ((parts.map g).foldl (append .all) r), false⟩ := by
  induction parts generalizing r with
  | nil => rfl
  | cons p parts ih =>
    have hp := h p List.mem_cons_self ⟨before, some r, true⟩ nofun
    rw [List.map_cons, List.flatMap_cons, List.cons_append, read_connective,
      read_append (balanced p List.mem_cons_self)]
    show (read ⟨before, some r, true⟩ (f p)).read _ = _
    rw [hp]
    exact ih (fun q hq => balanced q (List.mem_cons_of_mem p hq))
      fun q hq => h q (List.mem_cons_of_mem p hq)

/-- More alternatives under OR. -/
theorem value_read_any_parts {r : Requirement} (hdue : l.due = false) (hr : l.value = some r)
    (balanced : ∀ p ∈ parts, Balanced (f p))
    (h : ∀ p ∈ parts, ∀ l : Level, l.Ready .any → l.read (f p) = l.operand (some (g p))) :
    (l.read ((parts.map f).flatMap (.connective .any :: ·))).value =
      some ((parts.map g).foldl (append .any) r) := by
  induction parts generalizing l r with
  | nil => exact hr
  | cons p parts ih =>
    have hor : l.connective .any = ⟨some r, none, true⟩ := by
      rw [connective, if_neg (by rw [hdue]; exact Bool.false_ne_true), hr]
    have hp := h p List.mem_cons_self ⟨some r, none, true⟩ fun _ => rfl
    rw [List.map_cons, List.flatMap_cons, List.cons_append, read_connective,
      read_append (balanced p List.mem_cons_self), hor, hp]
    exact ih rfl rfl (fun q hq => balanced q (List.mem_cons_of_mem p hq))
      fun q hq => h q (List.mem_cons_of_mem p hq)

/-- Parts that are read as one operand each are appended to the first one. -/
theorem value_read_joinTokens {p : α} (balanced : ∀ q ∈ p :: parts, Balanced (f q))
    (h : ∀ q ∈ p :: parts, ∀ l : Level, l.Ready c → l.read (f q) = l.operand (some (g q))) :
    (start.read (joinTokens c ((p :: parts).map f))).value =
      some ((parts.map g).foldl (append c) (g p)) := by
  obtain ⟨hbal, hbals⟩ := List.forall_mem_cons.1 balanced
  obtain ⟨hp, hps⟩ := List.forall_mem_cons.1 h
  rw [List.map_cons, Requirement.joinTokens_cons, read_append hbal, hp start (ready_start c)]
  cases c with
  | all =>
    rw [show start.operand (some (g p)) = ⟨none, some (g p), false⟩ from rfl,
      read_all_parts hbals hps]
    rfl
  | any => exact value_read_any_parts rfl rfl hbals hps

end Level

end Reading

end Prereq
