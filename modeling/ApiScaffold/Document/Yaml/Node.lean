import ApiScaffold.Document.Yaml.Resolve
import ApiScaffold.Document.Yaml.Tokens

/-!
# YAML nodes

`Yaml.documentNode` reads tokens as the node of the one document they hold; a text may hold none.

A node is a scalar, a sequence or a mapping with a tag.  An anchor names a node, and an alias stands
for the node of its anchor; an anchor is used once, and an alias comes after its anchor, possibly
inside the node that the anchor names.

Everything is read in the order of the text, and of several things that are wrong with it the first
one counts.
-/

namespace ApiScaffold.Yaml

/-- A node of a document. -/
inductive Node where
  | scalar (tag : Tag) (text : String)
  | sequence (tag : Tag) (items : List Node)
  | mapping (tag : Tag) (entries : List (Node × Node))
  | anchored (name : String) (node : Node)
  | alias (name : String)
  deriving Repr

/-- What reading nodes depends on. -/
structure Grammar where
  /-- The tokens that are left. -/
  tokens : List Token
  /-- The anchors so far. -/
  anchors : List String
  /-- What tag handles stand for. -/
  handles : List (String × String)
  /-- The number of collections around the next token. -/
  depth : Nat

/-- A reader of nodes. -/
abbrev Reads (α : Type) := Except Failure (α × Grammar)

/-- What can stand in front of a node. -/
structure Properties where
  anchor : Option String
  tag : Option String

namespace Grammar

/-- Passes over a token. -/
def drop (g : Grammar) : Grammar := { g with tokens := g.tokens.tail }

/-- Refuses the next token: for the reason that it states, if it is a failure. -/
def refuse {α : Type} (g : Grammar) : Except Failure α :=
  match g.tokens with
  | .failure f :: _ => .error f
  | _ => malformed

/-- Whether the next token is one of the given ones. -/
def at? (g : Grammar) (ts : List Token) : Bool := g.tokens.head?.any ts.contains

/-- Notes the anchor of a node that begins, once it is clear what comes next. -/
def noteAnchor (g : Grammar) (anchor : Option String) : Except Failure Grammar :=
  match g.tokens, anchor with
  | .failure f :: _, _ => .error f
  | _, none => .ok g
  | _, some a =>
    if g.anchors.contains a then malformed else .ok { g with anchors := a :: g.anchors }

/-- The greatest number of collections inside each other. -/
def maxDepth : Nat := 485

/-- Reads what is in a collection. -/
def inside {α : Type} (g : Grammar) (read : Grammar → Except Failure (α × Grammar)) :
    Except Failure (α × Grammar) :=
  if maxDepth ≤ g.depth then .error (.misuse .tooDeep)
  else
    (read { g with depth := g.depth + 1 }).map fun r => (r.1, { r.2 with depth := g.depth })

/-- The tag that a handle and what follows it denote. -/
def resolveTag (g : Grammar) (handle : Option String) (rest : String) : Except Failure String :=
  match handle with
  | none => .ok rest
  | some h =>
    match g.handles.lookup h with
    | some s => .ok (s ++ rest)
    | none => malformed

/-- The anchor and the tag in front of a node, in either order. -/
def properties (g : Grammar) : Reads Properties :=
  match g.tokens with
  | .anchor _ :: .failure f :: _ => .error f
  | .tag _ _ :: .failure f :: _ => .error f
  | .anchor a :: .tag h r :: ts =>
    (g.resolveTag h r).map fun t => (⟨some a, some t⟩, { g with tokens := ts })
  | .anchor a :: ts => .ok (⟨some a, none⟩, { g with tokens := ts })
  | .tag h r :: .anchor a :: ts =>
    (g.resolveTag h r).map fun t => (⟨some a, some t⟩, { g with tokens := ts })
  | .tag h r :: ts => (g.resolveTag h r).map fun t => (⟨none, some t⟩, { g with tokens := ts })
  | _ => .ok (⟨none, none⟩, g)

end Grammar

/-- Whether a tag leaves the kind of a node to its text. -/
def isOpenTag : Option String → Bool
  | none => true
  | some t => t == "!"

/-- The node of a scalar: a plain one without a tag means what its text looks like. -/
def scalarNode (tag : Option String) (text : String) (isPlain : Bool) : Node :=
  match tag with
  | none => .scalar (if isPlain then resolvePlain text.toList else .str) text
  | some t => .scalar (if t = "!" then resolvePlain text.toList else Tag.ofString t) text

/-- The node of a scalar that is not written. -/
def emptyNode : Node := .scalar .null ""

/-- A node with its anchor, if it has one. -/
def withAnchor (anchor : Option String) (v : Node) : Node :=
  match anchor with
  | none => v
  | some a => .anchored a v

/-- The tag of a collection. -/
def collectionTag (default : Tag) (tag : Option String) : Tag :=
  if isOpenTag tag then default else (tag.map Tag.ofString).getD default

/-- Where a node stands. -/
inductive Context where
  /-- In a block; `hyphens` says that a sequence may begin here without an indentation of its
  own. -/
  | block (hyphens : Bool)
  | flow
  deriving DecidableEq

mutual

/-- Reads a node. The first argument bounds the number of steps, here and below. -/
def node : Nat → Context → Grammar → Reads Node
  | 0, _, _ => malformed
  | n + 1, ctx, g =>
    match g.tokens with
    | .alias a :: _ => if g.anchors.contains a then .ok (.alias a, g.drop) else malformed
    | _ =>
      match g.properties with
      | .error e => .error e
      | .ok (p, g) =>
        match g.noteAnchor p.anchor with
        | .error e => .error e
        | .ok g => (content n ctx p g).map fun r => (withAnchor p.anchor r.1, r.2)

/-- Reads what follows the anchor and the tag of a node. -/
def content : Nat → Context → Properties → Grammar → Reads Node
  | 0, _, _, _ => malformed
  | n + 1, ctx, p, g =>
    let sequence (r : List Node × Grammar) : Node × Grammar :=
      (.sequence (collectionTag .seq p.tag) r.1, r.2)
    let mapping (r : List (Node × Node) × Grammar) : Node × Grammar :=
      (.mapping (collectionTag .map p.tag) r.1, r.2)
    match g.tokens with
    | .blockEntry :: _ =>
      if ctx = .block true then g.inside fun g => (hyphens n g).map sequence else absent p g
    | .scalar text isPlain :: _ => .ok (scalarNode p.tag text isPlain, g.drop)
    | .flowSequenceStart :: _ => g.inside fun g => (flowItems n true g.drop).map sequence
    | .flowMappingStart :: _ => g.inside fun g => (flowEntries n true g.drop).map mapping
    | .blockSequenceStart :: _ =>
      if ctx = .flow then absent p g
      else g.inside fun g => (blockItems n g.drop).map sequence
    | .blockMappingStart :: _ =>
      if ctx = .flow then absent p g
      else g.inside fun g => (blockEntries n g.drop).map mapping
    | _ => absent p g

/-- A node without content: allowed behind an anchor or a tag. -/
def absent (p : Properties) (g : Grammar) : Reads Node :=
  if p.anchor.isNone && p.tag.isNone then g.refuse
  else if isOpenTag p.tag then .ok (emptyNode, g)
  else .ok (scalarNode p.tag "" false, g)

/-- Reads a node in a block, or nothing in front of one of the given tokens. -/
def blockPart : Nat → (hyphens : Bool) → List Token → Grammar → Reads Node
  | 0, _, _, _ => malformed
  | n + 1, hyphens, stops, g =>
    if g.at? stops then .ok (emptyNode, g) else node n (.block hyphens) g

/-- Reads a node in a flow collection, or nothing in front of one of the given tokens. -/
def flowPart : Nat → List Token → Grammar → Reads Node
  | 0, _, _ => malformed
  | n + 1, stops, g => if g.at? stops then .ok (emptyNode, g) else node n .flow g

/-- Reads the value of an entry, if a colon is there. -/
def flowValue : Nat → List Token → Grammar → Reads Node
  | 0, _, _ => malformed
  | n + 1, stops, g =>
    if g.at? [.value] then flowPart n stops g.drop else .ok (emptyNode, g)

/-- Reads the items of a block sequence. -/
def blockItems : Nat → Grammar → Reads (List Node)
  | 0, _ => malformed
  | n + 1, g =>
    match g.tokens with
    | .blockEntry :: _ =>
      match blockPart n false [.blockEntry, .blockEnd] g.drop with
      | .error e => .error e
      | .ok (v, g) => (blockItems n g).map fun r => (v :: r.1, r.2)
    | .blockEnd :: _ => .ok ([], g.drop)
    | _ => g.refuse

/-- Reads the items of a sequence at the indentation of the mapping around it. -/
def hyphens : Nat → Grammar → Reads (List Node)
  | 0, _ => malformed
  | n + 1, g =>
    match g.tokens with
    | .blockEntry :: _ =>
      match blockPart n false [.blockEntry, .key, .value, .blockEnd] g.drop with
      | .error e => .error e
      | .ok (v, g) => (hyphens n g).map fun r => (v :: r.1, r.2)
    | _ => .ok ([], g)

/-- Reads the entries of a block mapping. -/
def blockEntries : Nat → Grammar → Reads (List (Node × Node))
  | 0, _ => malformed
  | n + 1, g =>
    match g.tokens with
    | .key :: _ =>
      match blockPart n true [.key, .value, .blockEnd] g.drop with
      | .error e => .error e
      | .ok (k, g) =>
        match blockValue n g with
        | .error e => .error e
        | .ok (v, g) => (blockEntries n g).map fun r => ((k, v) :: r.1, r.2)
    | .blockEnd :: _ => .ok ([], g.drop)
    | _ => g.refuse

/-- Reads the value of an entry of a block mapping, if a colon is there. -/
def blockValue : Nat → Grammar → Reads Node
  | 0, _ => malformed
  | n + 1, g =>
    if g.at? [.value] then blockPart n true [.key, .value, .blockEnd] g.drop
    else .ok (emptyNode, g)

/-- Reads the items of a flow sequence; an entry with a colon is a mapping of its own. -/
def flowItems : Nat → (first : Bool) → Grammar → Reads (List Node)
  | 0, _, _ => malformed
  | n + 1, first, g =>
    if g.at? [.flowSequenceEnd] then .ok ([], g.drop)
    else if !first && !g.at? [.flowEntry] then g.refuse
    else
      let g := if first then g else g.drop
      if g.at? [.flowSequenceEnd] then .ok ([], g.drop)
      else
        let item : Reads Node :=
          if g.at? [.key] then
            match flowPart n [.value, .flowEntry, .flowSequenceEnd] g.drop with
            | .error e => .error e
            | .ok (k, g) =>
              (flowValue n [.flowEntry, .flowSequenceEnd] g).map fun r =>
                (.mapping .map [(k, r.1)], r.2)
          else node n .flow g
        match item with
        | .error e => .error e
        | .ok (v, g) => (flowItems n false g).map fun r => (v :: r.1, r.2)

/-- Reads the entries of a flow mapping. -/
def flowEntries : Nat → (first : Bool) → Grammar → Reads (List (Node × Node))
  | 0, _, _ => malformed
  | n + 1, first, g =>
    if g.at? [.flowMappingEnd] then .ok ([], g.drop)
    else if !first && !g.at? [.flowEntry] then g.refuse
    else
      let g := if first then g else g.drop
      if g.at? [.flowMappingEnd] then .ok ([], g.drop)
      else
        let entry : Reads (Node × Node) :=
          if g.at? [.key] then
            match flowPart n [.value, .flowEntry, .flowMappingEnd] g.drop with
            | .error e => .error e
            | .ok (k, g) =>
              (flowValue n [.flowEntry, .flowMappingEnd] g).map fun r => ((k, r.1), r.2)
          else (node n .flow g).map fun r => ((r.1, emptyNode), r.2)
        match entry with
        | .error e => .error e
        | .ok (e, g) => (flowEntries n false g).map fun r => (e :: r.1, r.2)

end

/-- The directives in front of a document, as the meanings of tag handles. At most one names the
version, which is 1. -/
def directives : (versioned : Bool) → Grammar → List Token → Except Failure Grammar
  | versioned, g, .directive d :: ts =>
    match d with
    | .version major => if versioned || major ≠ 1 then malformed else directives true g ts
    | .tagHandle h p =>
      if (g.handles.lookup h).isSome then malformed
      else directives versioned { g with handles := (h, p) :: g.handles } ts
    | .other => directives versioned g ts
  | _, g, ts => .ok { g with tokens := ts }

/-- What the usual tag handles stand for. -/
def defaultHandles : List (String × String) := [("!", "!"), ("!!", "tag:yaml.org,2002:")]

/-- Accepts the end of the only document. -/
def atEnd (g : Grammar) : Except Failure Unit :=
  match g.tokens.dropWhile (· == .documentEnd) with
  | [] => .ok ()
  | ts =>
    match directives false { g with handles := [] } ts with
    | .error e => .error e
    | .ok g => g.refuse

/-- The number of steps that reading the given tokens takes at most. -/
def stepBound (ts : List Token) : Nat := 6 * ts.length + 10

/-- Reads a document whose content comes next. -/
def rootNode (g : Grammar) : Except Failure (Option Node) :=
  match node (stepBound g.tokens) (.block false) g with
  | .error e => .error e
  | .ok (v, g) => (atEnd g).map fun _ => some v

/-- Reads a document that is marked as one. -/
def markedDocument (ts : List Token) : Except Failure (Option Node) :=
  match directives false ⟨[], [], [], 0⟩ ts with
  | .error e => .error e
  | .ok g =>
    let g := { g with handles := g.handles ++ defaultHandles }
    match g.tokens with
    | .documentStart :: ts =>
      let g := { g with tokens := ts }
      match ts with
      | [] | .directive _ :: _ | .documentStart :: _ | .documentEnd :: _ =>
        (atEnd g).map fun _ => some emptyNode
      | _ => rootNode g
    | _ => g.refuse

/-- The node of the only document that the tokens hold, if they hold any. -/
def documentNode (ts : List Token) : Except Failure (Option Node) :=
  match ts with
  | [] => .ok none
  | .directive _ :: _ | .documentStart :: _ => markedDocument ts
  | _ => rootNode ⟨ts, [], defaultHandles, 0⟩

end ApiScaffold.Yaml
