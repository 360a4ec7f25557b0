import WordSwitch.Outline

/-!
# What is generated

A recognizer is written either as code or as an outline.
-/

namespace WordSwitch

/-- What the output is written in. -/
inductive Language where
  | code
  | outline
deriving DecidableEq, Repr

namespace Language

/-- The language with a name. -/
def ofName (name : String) : Except RequestError Language :=
  if ["C", "c", "C++", "c++"].contains name then .ok .code
  else if name == "tree" then .ok .outline
  else .error (.unknownLanguage name)

end Language

/-- What is generated, with all that was asked of it. -/
inductive Target where
  | code (config : CodeConfig)
  | outline
deriving DecidableEq, Repr

namespace Target

/-- The target for a language, unless the request is refused. -/
def ofRequest
    (language : Language)
    (config : CodeConfig) :
    Except RequestError Target := do
  config.check
  match language with
  | .code => return .code config
  | .outline =>
    if config.isSplit then .error .splitOutline else return .outline

/-- The text that is generated; `none` if a counter has no value. -/
def units?
    (target : Target)
    (recognizer : Recognizer)
    (lexicon : Lexicon) :
    Option Units :=
  match target with
  | .code config => Program.units? config recognizer lexicon
  | .outline => some recognizer.outline

end Target

end WordSwitch
