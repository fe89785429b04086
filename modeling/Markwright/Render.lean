import Markwright.Document.Emission
import Markwright.Session

/-!
# Rendering a document

The markdown of a tree is what a session has written once it has taken all events of the tree.
-/

namespace Markwright

/-- The session after a whole tree. -/
def Node.session (style : Style) (n : Node) : Except Failure Session :=
  Session.run style n.events

/-- What the end of a document looks like. -/
def Options.finish (o : Options) (markdown : String) : String :=
  if o.stripFinalBreaks then Text.stripFinalBreaks markdown else markdown

/-- The markdown of a tree. -/
def Node.render (style : Style) (n : Node) : Except Failure String :=
  (n.session style).map fun s => style.options.finish s.written

end Markwright
