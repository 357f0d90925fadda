import Prereq.Graph.Order
import Prereq.Requirement.Edit
import Prereq.Requirement.Meaning
import Prereq.Selection
import Prereq.Wire.Request
import Prereq.Wire.Requirement
import Prereq.Proofs.Links.Ancestors
import Prereq.Proofs.Requirement.NormalForm
import Prereq.Proofs.Curriculum
import Prereq.Proofs.Requirement.Sound
import Prereq.Proofs.Token.Nesting
import Prereq.Proofs.Requirement.RoundTrip
import Prereq.Proofs.Conjunction
import Prereq.Proofs.Links.Reduction
import Prereq.Proofs.SimplifyConcepts
import Prereq.Proofs.Requirement.Pathways
import Prereq.Proofs.Requirement.Reading
import Prereq.Proofs.Requirement.Mixed
import Prereq.Proofs.Faithful
import Prereq.Proofs.Requirement.Numbers
import Prereq.Proofs.Requirement.Levels
import Prereq.Proofs.Requirement.Combination
import Prereq.Proofs.Requirement.Expansion
import Prereq.Proofs.Requirement.Grammar
import Prereq.Proofs.Requirement.Irredundant
import Prereq.Proofs.Requirement.OrDepth
import Prereq.Proofs.Requirement.Cut
import Prereq.Proofs.SimplifyText
import Prereq.Proofs.Links.Circuits
import Prereq.Proofs.Links.Search
import Prereq.Proofs.Links.Stack
import Prereq.Proofs.Links.Reach
import Prereq.Proofs.Links.Circles
import Prereq.Proofs.Links.Knots
import Prereq.Proofs.Links.Cut
import Prereq.Proofs.Graph.Edges
import Prereq.Proofs.Graph.Order
import Prereq.Proofs.Graph.Stack
import Prereq.Proofs.Graph.Downstream
import Prereq.Proofs.Curriculum.Circles
import Prereq.Proofs.Curriculum.Interchange
import Prereq.Proofs.Mentions
import Prereq.Proofs.Requirement.Leaves
import Prereq.Proofs.Requirement.Pruning
import Prereq.Proofs.Answer
import Prereq.Proofs.Deletion
import Prereq.Proofs.Renaming
import Prereq.Proofs.Selection
import Prereq.Proofs.Selection.Tour
import Prereq.Proofs.Requirement.Positions
import Prereq.Proofs.Requirement.Grouping
import Prereq.Proofs.Requirement.Duplicates
import Prereq.Proofs.Requirement.Renumbering
import Prereq.Proofs.Relevance
import Prereq.Proofs.Graph.Neighbours
import Prereq.Proofs.Graph.Adjacency
import Prereq.Proofs.Text.Boundaries
import Prereq.Proofs.Token.Spellings
import Prereq.Proofs.Requirement.Coverage
import Prereq.Proofs.Requirement.Height
import Prereq.Proofs.Requirement.Closings
import Prereq.Proofs.Requirement.Merging
import Prereq.Proofs.Text.Replacement
import Prereq.Proofs.Text.Parentheses
import Prereq.Proofs.Token.Places
import Prereq.Proofs.FreeText
