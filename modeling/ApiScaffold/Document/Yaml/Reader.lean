import ApiScaffold.Document.Yaml.Unfold

/-!
# Reading YAML

`Yaml.read` reads a YAML text that holds one document, or none, as a value: the text becomes tokens,
the tokens a node, the nodes a graph, and the graph objects, which are written out at last.
-/

namespace ApiScaffold.Yaml

/-- The value of a document. -/
def valueOf (v : Node) : Except Failure Value := (Workshop.run (Graph.ofNode v)).map unfold

/-- Reads a text; one without a document is null. -/
def read (cs : List Char) : Except Failure Value :=
  match documentNode (tokens cs) with
  | .error e => .error e
  | .ok none => .ok .null
  | .ok (some v) => valueOf v

end ApiScaffold.Yaml
