import ApiScaffold.Fault

/-!
# YAML tokens

The tokens of a YAML text.  Indentation shows as tokens that begin and end block collections, and a
key without a question mark is announced by a `key` token in front of it.
-/

namespace ApiScaffold.Yaml

/-- Why a YAML text cannot be read: it is malformed, or a scalar in it has no value. -/
inductive Failure where
  | malformed
  | misuse (m : Misuse)
  deriving DecidableEq, Repr

/-- A directive of a document. -/
inductive Directive where
  | version (major : Nat)
  | tagHandle (handle tagPrefix : String)
  | other
  deriving DecidableEq, Repr

/-- A token. The end of the text is the end of the list of tokens. -/
inductive Token where
  | directive (d : Directive)
  | documentStart
  | documentEnd
  | blockSequenceStart
  | blockMappingStart
  | blockEnd
  | flowSequenceStart
  | flowSequenceEnd
  | flowMappingStart
  | flowMappingEnd
  | blockEntry
  | flowEntry
  | key
  | value
  | alias (name : String)
  | anchor (name : String)
  /-- A tag: a handle, unless the tag is given in full, and what follows it. -/
  | tag (handle : Option String) (rest : String)
  /-- A scalar; `plain` says that it is neither quoted nor a block. -/
  | scalar (text : String) (plain : Bool)
  /-- The text cannot be read further. -/
  | failure (f : Failure)
  deriving DecidableEq, Repr

end ApiScaffold.Yaml
