import ApiScaffold.Text.Blank

/-!
# Names

Every name that crosses from a document into a resource, and from a resource into a file, is made
here.

* `splitWords` takes an identifier or a phrase apart; `camelCase` and `pascalCase` put its words
  together again;
* `singular` inflects the last word of a name;
* `resourceName` is the resource that a path belongs to, `baseRoute` the route of its first segment;
* `className` and `fileName` are the class and the file of a resource in a role.
-/

namespace ApiScaffold.Naming

/-- Whether a word starts at `c` between the characters `p` and the text `rest`: at a capital after
a small letter or digit, and at the last capital of a run before a small letter. -/
def startsWord (p c : Char) (rest : List Char) : Bool :=
  c.isUpper && (p.isLower || p.isDigit || (p.isUpper && rest.head?.any Char.isLower))

/-- Puts a space in front of each word that starts inside a run of letters and digits; `p` is the
character before the text. -/
def spaceWords (p : Char) : List Char → List Char
  | [] => []
  | c :: cs => if startsWord p c cs then ' ' :: c :: spaceWords c cs else c :: spaceWords c cs

/-- The words of a name, of ASCII letters and digits. -/
def splitWords (cs : List Char) : List (List Char) :=
  (Text.splitWhere (fun c => !c.isAlphanum) (spaceWords ' ' cs)).filter (· ≠ [])

theorem nil_notMem_splitWords (cs : List Char) : [] ∉ splitWords cs := by simp [splitWords]

/-- The text in small letters. -/
def lower (cs : List Char) : List Char := cs.map Char.toLower

/-- The text with a capital first letter and small letters behind it. -/
def capitalize : List Char → List Char
  | [] => []
  | c :: cs => c.toUpper :: lower cs

/-- The words of a name, the first in small letters and the others capitalized. -/
def camelCase (cs : List Char) : List Char :=
  match splitWords cs with
  | [] => []
  | w :: ws => lower w ++ (ws.map capitalize).flatten

/-- The words of a name, each capitalized. -/
def pascalCase (cs : List Char) : List Char := ((splitWords cs).map capitalize).flatten

/-- Plurals that follow no rule of spelling, with their singulars. -/
def irregularSingulars : List (String × String) :=
  [("people", "person"), ("children", "child"), ("men", "man"), ("women", "woman"),
    ("mice", "mouse"), ("geese", "goose"), ("feet", "foot"), ("teeth", "tooth"),
    ("movies", "movie"), ("cookies", "cookie"), ("caches", "cache"), ("statuses", "status"),
    ("buses", "bus"), ("sizes", "size")]

/-- Words that are their own singular. -/
def uncountable : List String :=
  ["news", "series", "species", "status", "data", "metadata", "settings", "analysis"]

/-- Whether a text ends in `suffix`. -/
def endsIn (suffix : String) (cs : List Char) : Bool := suffix.toList.isSuffixOf cs

/-- The text without its last `n` characters. -/
def dropLast (n : Nat) (cs : List Char) : List Char := cs.take (cs.length - n)

/-- The singular of one word. -/
def singularWord (word : List Char) : List Char :=
  let small := lower word
  match irregularSingulars.lookup (String.ofList small) with
  | some s =>
    if word.head?.any Char.isUpper then word.take 1 ++ s.toList.drop 1 else s.toList
  | none =>
    if uncountable.contains (String.ofList small) || small.length < 3 then word
    else if endsIn "ies" small then
      dropLast 3 word ++ [if word.all Char.isUpper then 'Y' else 'y']
    else if ["sses", "shes", "ches", "xes"].any (endsIn · small) then dropLast 2 word
    else if ["ss", "us", "is"].any (endsIn · small) then word
    else if endsIn "s" small then dropLast 1 word
    else word

/-- The text without one line feed at its end. -/
def withoutFinalLineFeed (cs : List Char) : List Char :=
  if cs.getLast? = some '\n' then cs.dropLast else cs

/-- The run of ASCII letters at the end of a text, one final line feed apart. -/
def finalLetters (cs : List Char) : List Char :=
  Text.takeSuffixWhile Char.isAlpha (withoutFinalLineFeed cs)

/-- The name with its last word in the singular. If several words make up the final letters, the
last of them replaces as many characters at the very end of the name; a single word replaces the
letters and what follows them. -/
def singular (cs : List Char) : List Char :=
  let letters := finalLetters cs
  if letters.isEmpty then cs
  else
    match splitWords letters with
    | [] | [_] => dropLast letters.length (withoutFinalLineFeed cs) ++ singularWord letters
    | ws => dropLast (ws.getLastD []).length cs ++ singularWord (ws.getLastD [])

/-- The segment of a path after its first slash. -/
def firstSegment (path : List Char) : List Char := (Text.splitOn '/' path).getD 1 []

/-- The resource that a path belongs to; empty if its first segment has no letter or digit. -/
def resourceName (path : List Char) : List Char := pascalCase (singular (firstSegment path))

/-- The route of the first segment of a path. -/
def baseRoute (path : List Char) : List Char := '/' :: firstSegment path

/-- The layer that a generated class belongs to. -/
inductive Role where
  | model
  | service
  | controller
  deriving DecidableEq, Repr

/-- What the layer adds to the name of a class. -/
def Role.suffix : Role → String
  | model => ""
  | service => "Service"
  | controller => "Controller"

/-- The layer whose classes have the given suffix. -/
def Role.ofSuffix? (s : String) : Option Role :=
  [model, service, controller].find? fun r => r.suffix == s

/-- The class of a resource in a layer. -/
def className (name : String) (role : Role) : String := name ++ role.suffix

/-- The extension without the points in front of it. -/
def bareExtension (ext : String) : String := String.ofList (ext.toList.dropWhile (· == '.'))

/-- The file of a resource in a layer. -/
def fileName (name : String) (role : Role) (ext : String) : String :=
  className name role ++ "." ++ bareExtension ext

end ApiScaffold.Naming
