/-!
# Renderers

A renderer has a name, takes options of one kind, and may be able to render to a text. Asking for
what it does not do is a fault of the caller.
-/

namespace Markwright

/-- What a renderer cannot do. -/
inductive RendererFault where
  | wrongOptions (renderer expected received : String)
  | noText (renderer : String)
  /-- A node of a kind that has no written form. -/
  | unknownNode (kind : String)

/-- The text of a fault. -/
def RendererFault.message : RendererFault → String
  | wrongOptions renderer expected received =>
    renderer ++ " expected options of type '" ++ expected ++ "' but received '" ++ received
      ++ "'. Please provide the correct options type for the renderer."
  | noText renderer => renderer ++ " does not support rendering to a string."
  | unknownNode kind => "Unknown node type for serialization: " ++ kind

/-- A renderer as those that use it see it. -/
structure Renderer where
  name : String
  optionKind : String
  /-- The text of a document, if the renderer has one. -/
  text? : Option String

namespace Renderer

/-- Options are taken when they are of the renderer's kind. -/
def acceptOptions (r : Renderer) (received : String) : Except RendererFault Unit :=
  if received = r.optionKind then .ok () else .error (.wrongOptions r.name r.optionKind received)

/-- The text that a renderer has made. -/
def text (r : Renderer) : Except RendererFault String :=
  match r.text? with
  | some s => .ok s
  | none => .error (.noText r.name)

end Renderer

end Markwright
