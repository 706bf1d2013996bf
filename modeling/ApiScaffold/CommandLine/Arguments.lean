/-!
# Arguments

How the words of a command line fall into options and other words.  An option has a long name behind
two hyphens or a short one behind one; its value is the rest of its word or the next word.  Short
options may share a word.  Behind two hyphens alone there are no options.
-/

namespace ApiScaffold.CommandLine

/-- An option that a command knows. -/
structure OptionForm where
  name : String
  short : Option Char
  hasValue : Bool
  deriving DecidableEq, Repr

/-- An option that was given, by its long name; the value is empty for one without. -/
structure Given where
  name : String
  value : String
  deriving DecidableEq, Repr

/-- Reads the short options of a word; a value is the rest of the word, or the first of the words
that follow. -/
def shortOptions (forms : List OptionForm) (rest : List String) :
    List Char → Option (List Given × List String)
  | [] => some ([], rest)
  | c :: cs =>
    match forms.find? fun f => f.short == some c with
    | none => none
    | some f =>
      if f.hasValue then
        if cs.isEmpty then
          match rest with
          | [] => none
          | v :: rest => some ([⟨f.name, v⟩], rest)
        else some ([⟨f.name, String.ofList cs⟩], rest)
      else (shortOptions forms rest cs).map fun r => (⟨f.name, ""⟩ :: r.1, r.2)

/-- Reads a long option; its value stands behind an equals sign, or is the first of the words that
follow. -/
def longOption (forms : List OptionForm) (rest : List String) (word : List Char) :
    Option (List Given × List String) :=
  let name := String.ofList (word.takeWhile (· != '='))
  match forms.find? (·.name == name) with
  | none => none
  | some f =>
    match f.hasValue, word.dropWhile (· != '=') with
    | true, _ :: value => some ([⟨name, String.ofList value⟩], rest)
    | true, [] =>
      match rest with
      | [] => none
      | v :: rest => some ([⟨name, v⟩], rest)
    | false, _ :: _ => none
    | false, [] => some ([⟨name, ""⟩], rest)

/-- Reads the words of a command line. With `mixed`, options may follow other words; otherwise the
first other word ends them. The first argument bounds the number of words. -/
def arguments (forms : List OptionForm) (mixed : Bool) :
    (steps : Nat) → List String → Option (List Given × List String)
  | 0, words => some ([], words)
  | _ + 1, [] => some ([], [])
  | n + 1, word :: rest =>
    let found : Option (Option (List Given × List String)) :=
      match word.toList with
      | ['-', '-'] => none
      | '-' :: '-' :: cs => some (longOption forms rest cs)
      | '-' :: c :: cs => some (shortOptions forms rest (c :: cs))
      | _ => none
    match found with
    | some none => none
    | some (some (given, rest)) =>
      (arguments forms mixed n rest).map fun r => (given ++ r.1, r.2)
    | none =>
      if word = "--" then some ([], rest)
      else if mixed then
        (arguments forms mixed n rest).map fun r => (r.1, word :: r.2)
      else some ([], word :: rest)

/-- The value of an option; the last one given counts. -/
def valueOf? (given : List Given) (name : String) : Option String :=
  (given.reverse.find? (·.name == name)).map (·.value)

end ApiScaffold.CommandLine
