import Conform.Text.Quoted
import Conform.Token

/-!
# Explaining tokens

How a text is read as a type token, for people: its parts, and what it accepts. What it accepts is settled by the outermost
suffix, and the explanation names the simpler token that stands behind it.
-/

namespace Conform

/-- What a text accepts as a type token: nothing when it is no token, missing values and what another token accepts, arrays of
what another token accepts, everything, or the values of one kind. -/
inductive TokenSense where
  | noToken
  | optional (inner : String)
  | array (element : String)
  | anything
  | kind (name : String)
  deriving DecidableEq, Repr

namespace TypeToken

/-- What a token accepts. -/
def sense (t : TypeToken) : TokenSense :=
  if t.optional then .optional t.withoutOptional.text
  else if t.array then .array t.element.text
  else if t.isWildcard then .anything
  else .kind t.base

/-- What a text accepts as a type token. -/
def senseOf (text : String) : TokenSense :=
  match parse? text with
  | none => .noToken
  | some t => t.sense

/-- The text of a truth value. -/
def flagText (b : Bool) : String := if b then "true" else "false"

/-- What a token accepts, in words. -/
def senseText : TokenSense → String
  | .noToken => "nothing"
  | .optional inner => s!"union(null, undefined, {Quoted.quote inner})"
  | .array element => s!"arrayOf({Quoted.quote element})"
  | .anything => "any value"
  | .kind name => s!"values whose runtime kind is `{name}`"

/-- The explanation of a text as a type token, over several lines. -/
def explain (text : String) : String :=
  match parse? text with
  | none => s!"{Quoted.quote text} is not a type token; it matches no value"
  | some t => "\n".intercalate
    [s!"base:     {t.base}", s!"array:    {flagText t.array}", s!"optional: {flagText t.optional}",
      s!"reads as: {senseText t.sense}"]

end TypeToken

end Conform
