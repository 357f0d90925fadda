import Prereq.Node
import Prereq.Text.Word

/-!
# Mentions of nodes in a text

A text mentions a node by a word that is a numeral. Connectives play no part here.

* `mentions` : the nodes that a text mentions, in order and with repetitions;
* `replaceMentions` : the text with the numeral of one node put for that of another.
-/

namespace Prereq

/-- The nodes that a text mentions: the words that are numerals of a node. -/
def mentions (s : String) : List Node := (Text.words s.toList).filterMap Node.read?

/-- Replace the words that are the numeral of `old` by the numeral of `new`. -/
def replaceMentions (old new : Node) (s : String) : String :=
  String.ofList (Text.mapWords (fun w => if w = old.digits then new.digits else w) s.toList)

end Prereq
