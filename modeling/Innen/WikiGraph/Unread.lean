import Innen.WikiGraph.Ownership

/-!
# Pages that cannot be read

A page that cannot be read counts as present, but its path is compared as it is on disk, and no reference can resolve to
it any more. Here is what this means for its node: which edges to it the other pages still ask for, and when a sync
leaves alone what the unread page would keep.
-/

namespace Innen.WikiGraph

open Common Graph Journal

variable {P : Platform}

/-! ## What references resolve to -/

section

variable {place : Place} {graph : Materialized} {pages : List WikiPage} {id : String} (start : String)

end

section

variable {place : Place} {graph : Materialized} {pages : List WikiPage} {id : String}

end

/-! ## Unread pages -/

/-- The paths of the files that could not be read, as they would be registered. -/
def unreadPaths (files : List PageFile) : List String :=
  (files.filter fun file => file.text.isNone).map fun file => replaceText file.relative "\\" "/"

/-- The node with this id is registered for a page that could not be read. -/
def Unread (files : List PageFile) (graph : Materialized) (id path : String) : Prop :=
  (∃ node, graph.nodes.get? id = some node ∧ registeredPath node = some path) ∧ path ∈ unreadPaths files

/-- No page that was read has the id of the node of an unread one. -/
structure Apart (place : Place) (files : List PageFile) (graph : Materialized) (pages : List WikiPage) : Prop where
  skipped : ∀ page ∈ pages, page.id ∉ (skippedNodes graph (preflight place files).skippedPaths).map Prod.fst
  unread : ∀ id path, Unread files graph id path → ∀ page ∈ pages, page.id ≠ id

section

variable (P) (files : List PageFile) (graph : Materialized) (pages : List WikiPage)

end

/-! ## What is left alone -/

section

variable (P) (files : List PageFile) (graph : Materialized) (pages : List WikiPage)

end

section

variable {V : Visit} {place : Place} {files : List PageFile} {graph : Materialized} {pages : List WikiPage} {p : Plan}

end

/-! ## What a plan does to it -/

section

variable {V : Visit} {place : Place} {files : List PageFile} {graph : Materialized} {pages : List WikiPage} {p : Plan}

end

/-! ## References to it -/

section

variable {V : Visit} {place : Place} {files : List PageFile} {graph : Materialized} {pages : List WikiPage} {p : Plan}
variable {id reference : String} {page : WikiPage}

end

section

variable {V : Visit} {place : Place} {files : List PageFile} {graph : Materialized} {pages : List WikiPage} {p : Plan}
variable {id reference : String} {page : WikiPage}

end

/-! ## A sync -/

deriving instance DecidableEq for WikiPage

end Innen.WikiGraph
