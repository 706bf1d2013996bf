import ApiScaffold.Log

/-!
# The level of the log

Events below a threshold are not shown.  The threshold is named: by the caller, else by a variable
of the environment, else it is that of information.  Names count in capitals; an unknown name means
information, and two names denote no level at all.
-/

namespace ApiScaffold.LogLevel

/-- What a character is in capitals, as far as the capitals are ASCII. -/
def capitals (c : Char) : List Char :=
  if c = 'ı' then ['I']
  else if c = 'ſ' then ['S']
  else if c = 'ß' then ['S', 'S']
  else if c = '\uFB00' then ['F', 'F']
  else if c = '\uFB01' then ['F', 'I']
  else if c = '\uFB02' then ['F', 'L']
  else if c = '\uFB03' then ['F', 'F', 'I']
  else if c = '\uFB04' then ['F', 'F', 'L']
  else if c = '\uFB05' ∨ c = '\uFB06' then ['S', 'T']
  else [c.toUpper]

/-- The levels by name. -/
def named : List (String × Nat) :=
  [("CRITICAL", 50), ("FATAL", 50), ("ERROR", 40), ("WARNING", 30), ("WARN", 30), ("INFO", 20),
    ("DEBUG", 10), ("NOTSET", 0)]

/-- The threshold that a name denotes. -/
def ofName (name : String) : Except Misuse Nat :=
  let word := String.ofList (name.toList.flatMap capitals)
  if word = "BASIC_FORMAT" then .error .badText
  else if word = "_STYLES" then .error .wrongKind
  else .ok ((named.lookup word).getD Level.info.rank)

/-- The threshold for a level that may be given, and an environment. -/
def threshold (given : Option String) (env : List (String × String)) : Except Misuse Nat :=
  match given with
  | some name => if name = "" then ofEnvironment else ofName name
  | none => ofEnvironment
where
  /-- The threshold of the environment. -/
  ofEnvironment : Except Misuse Nat := ofName ((env.lookup "LOG_LEVEL").getD "INFO")

end ApiScaffold.LogLevel
