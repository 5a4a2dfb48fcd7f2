import Conform.Filter.Expression
import Conform.Filter.Lexeme

/-!
# Reading filter expressions

Terms are read first, with the steps of a path and the question marks behind them, and rows of terms with operators between them
are then joined by how tightly the operators bind; operators of one level are joined from the left. In an object a comma divides
entries, so that an entry may hold every operator but the comma.

Each reader takes its part off the front of the lexemes. The depth of its calls is bounded by `fuel`, for which a multiple of the
number of lexemes is enough: between two calls that begin at the same lexeme there are only so many others.
-/

namespace Conform.Filter

/-! ### Rows of terms -/

/-- Operators with the terms behind them. -/
abbrev Chain : Type := List (Operator × Expression)

/-- Cuts a term with a chain behind it at the operators of one level. Gives the first piece and the others, each behind its
operator. -/
def Chain.cut (level : Nat) (head : Expression) : Chain → (Expression × Chain) × List (Operator × Expression × Chain)
  | [] => ((head, []), [])
  | (op, e) :: tail =>
    let (piece, pieces) := cut level e tail
    if op.level = level then ((head, []), (op, piece) :: pieces) else ((head, (op, piece.1) :: piece.2), pieces)

/-- Joins a term and a chain behind it in which only the given number of tightest levels occur. -/
def Chain.join : Nat → Expression × Chain → Expression
  | 0, piece => piece.1
  | levels + 1, piece =>
    let (first, others) := Chain.cut (Operator.levels - (levels + 1)) piece.1 piece.2
    others.foldl (fun e other => .binary other.1 e (join levels other.2)) (join levels first)

/-- The operator that is written as a symbol. -/
def Operator.ofSymbol? : String → Option Operator
  | "|" => some .pipe
  | "," => some .comma
  | "//" => some .alternative
  | "==" => some (.compare .equal)
  | "!=" => some (.compare .different)
  | "<" => some (.compare .less)
  | "<=" => some (.compare .atMost)
  | ">" => some (.compare .greater)
  | ">=" => some (.compare .atLeast)
  | "+" => some (.arithmetic .add)
  | "-" => some (.arithmetic .subtract)
  | "*" => some (.arithmetic .multiply)
  | _ => none

/-- The operator that a lexeme is. A comma may be excepted. -/
def Operator.ofLexeme? (commas : Bool) : Lexeme → Option Operator
  | .word "and" => some .and
  | .word "or" => some .or
  | .symbol "," => if commas then some .comma else none
  | .symbol text => ofSymbol? text
  | _ => none

/-! ### Terms -/

/-- Words that are no names of filters. -/
def keywords : List String :=
  ["if", "then", "elif", "else", "end", "and", "or", "as", "def", "reduce", "foreach", "try", "catch", "label", "import",
    "include"]

/-- Takes a lexeme that has to come next. -/
def expect (l : Lexeme) : List Lexeme → Option (List Lexeme)
  | [] => none
  | m :: ls => if l = m then some ls else none

/-- The step to what stands under a name. -/
def PathStep.named (name : String) : PathStep := .index (.string name) false

/-- An object of entries: each is laid over those before it. -/
def Expression.ofEntries : List (Expression × Expression) → Expression
  | [] => .emptyObject
  | e :: es => es.foldl (fun o e => .binary (.arithmetic .add) o (.entry e.1 e.2)) (.entry e.1 e.2)

mutual

/-- An expression. -/
def expression? : Nat → Bool → List Lexeme → Option (Expression × List Lexeme)
  | 0, _, _ => none
  | fuel + 1, commas, ls => do
    let (head, ls) ← term? fuel ls
    let (tail, ls) ← chain? fuel commas ls
    some (Chain.join Operator.levels (head, tail), ls)

/-- Operators with terms behind them, as many as there are. -/
def chain? : Nat → Bool → List Lexeme → Option (Chain × List Lexeme)
  | 0, _, _ => none
  | _, _, [] => some ([], [])
  | fuel + 1, commas, l :: ls =>
    match Operator.ofLexeme? commas l with
    | none => some ([], l :: ls)
    | some op => do
      let (e, ls) ← term? fuel ls
      let (tail, ls) ← chain? fuel commas ls
      some ((op, e) :: tail, ls)

/-- A term: an atom with what leads on from it, which may have the sign of negation in front of it. -/
def term? : Nat → List Lexeme → Option (Expression × List Lexeme)
  | 0, _ => none
  | fuel + 1, .symbol "-" :: ls => do
    let (e, ls) ← term? fuel ls
    some (.negate e, ls)
  | fuel + 1, ls => do
    let (base, ls) ← atom? fuel ls
    path? fuel base [] ls

/-- What leads on from an atom, given the steps read so far, last one first. A question mark makes the step before it lenient, or
the atom itself. -/
def path? : Nat → Expression → List PathStep → List Lexeme → Option (Expression × List Lexeme)
  | 0, _, _, _ => none
  | fuel + 1, base, [], .symbol "?" :: ls => path? fuel (.attempt base) [] ls
  | fuel + 1, base, step :: steps, .symbol "?" :: ls => path? fuel base (step.asLenient :: steps) ls
  | fuel + 1, base, steps, .field name :: ls => path? fuel base (.named name :: steps) ls
  | fuel + 1, base, steps, .dot :: .string name :: ls => path? fuel base (.named name :: steps) ls
  | fuel + 1, base, steps, .dot :: .bracket '[' :: ls => do
    let (step, ls) ← step? fuel ls
    path? fuel base (step :: steps) ls
  | fuel + 1, base, steps, .bracket '[' :: ls => do
    let (step, ls) ← step? fuel ls
    path? fuel base (step :: steps) ls
  | _, base, [], ls => some (base, ls)
  | _, base, steps, ls => some (.path base steps.reverse, ls)

/-- A step in brackets, after the opening one. -/
def step? : Nat → List Lexeme → Option (PathStep × List Lexeme)
  | 0, _ => none
  | _, .bracket ']' :: ls => some (.each false, ls)
  | fuel + 1, .symbol ":" :: ls => do
    let (stop, ls) ← expression? fuel true ls
    some (.slice none (some stop) false, ← expect (.bracket ']') ls)
  | fuel + 1, ls => do
    let (start, ls) ← expression? fuel true ls
    match ls with
    | .bracket ']' :: ls => some (.index start false, ls)
    | .symbol ":" :: .bracket ']' :: ls => some (.slice (some start) none false, ls)
    | ls =>
      let (stop, ls) ← expression? fuel true (← expect (.symbol ":") ls)
      some (.slice (some start) (some stop) false, ← expect (.bracket ']') ls)

/-- An atom. A path begins at the input without a lexeme of its own, or with a lone dot. -/
def atom? : Nat → List Lexeme → Option (Expression × List Lexeme)
  | 0, _ => none
  | _, .field name :: ls => some (.identity, .field name :: ls)
  | _, .dot :: .string name :: ls => some (.identity, .dot :: .string name :: ls)
  | _, .dot :: ls => some (.identity, ls)
  | _, .number spelling :: ls => some (.number spelling, ls)
  | _, .string text :: ls => some (.string text, ls)
  | _, .variable name :: ls => some (.variable name, ls)
  | fuel + 1, .bracket '(' :: ls => do
    let (e, ls) ← expression? fuel true ls
    some (e, ← expect (.bracket ')') ls)
  | _, .bracket '[' :: .bracket ']' :: ls => some (.collect (.call "empty" []), ls)
  | fuel + 1, .bracket '[' :: ls => do
    let (e, ls) ← expression? fuel true ls
    some (.collect e, ← expect (.bracket ']') ls)
  | _, .bracket '\x7b' :: .bracket '\x7d' :: ls => some (.emptyObject, ls)
  | fuel + 1, .bracket '\x7b' :: ls => do
    let (entries, ls) ← entries? fuel ls
    some (.ofEntries entries, ls)
  | fuel + 1, .word "if" :: ls => conditional? fuel ls
  | fuel + 1, .word name :: .bracket '(' :: ls => do
    let (arguments, ls) ← arguments? fuel ls
    if keywords.contains name then none else some (.call name arguments, ls)
  | _, .word name :: ls => if keywords.contains name then none else some (.call name [], ls)
  | _, _ => none

/-- A condition, after its first word, and its branches. Without a branch for the other case the input stays as it is. -/
def conditional? : Nat → List Lexeme → Option (Expression × List Lexeme)
  | 0, _ => none
  | fuel + 1, ls => do
    let (test, ls) ← expression? fuel true ls
    let (yes, ls) ← expression? fuel true (← expect (.word "then") ls)
    match ls with
    | .word "end" :: ls => some (.conditional test yes .identity, ls)
    | .word "elif" :: ls =>
      let (no, ls) ← conditional? fuel ls
      some (.conditional test yes no, ls)
    | ls =>
      let (no, ls) ← expression? fuel true (← expect (.word "else") ls)
      some (.conditional test yes no, ← expect (.word "end") ls)

/-- The arguments of a call, after the opening bracket. -/
def arguments? : Nat → List Lexeme → Option (List Expression × List Lexeme)
  | 0, _ => none
  | fuel + 1, ls => do
    let (e, ls) ← expression? fuel true ls
    match ls with
    | .bracket ')' :: ls => some ([e], ls)
    | ls =>
      let (es, ls) ← arguments? fuel (← expect (.symbol ";") ls)
      some (e :: es, ls)

/-- The entries of an object, after the opening bracket. -/
def entries? : Nat → List Lexeme → Option (List (Expression × Expression) × List Lexeme)
  | 0, _ => none
  | fuel + 1, ls => do
    let (e, ls) ← entry? fuel ls
    match ls with
    | .bracket '\x7d' :: ls => some ([e], ls)
    | ls =>
      let (es, ls) ← entries? fuel (← expect (.symbol ",") ls)
      some (e :: es, ls)

/-- An entry of an object: a key and its value. A key alone names the field of the input, or the variable, that is the value. -/
def entry? : Nat → List Lexeme → Option ((Expression × Expression) × List Lexeme)
  | 0, _ => none
  | fuel + 1, .bracket '(' :: ls => do
    let (key, ls) ← expression? fuel true ls
    let (value, ls) ← expression? fuel false (← expect (.symbol ":") (← expect (.bracket ')') ls))
    some ((key, value), ls)
  | _, .variable name :: ls => some ((.string name, .variable name), ls)
  | fuel + 1, .word name :: ls => member? fuel name ls
  | fuel + 1, .string name :: ls => member? fuel name ls
  | _, _ => none

/-- The rest of an entry after a key that is a name. -/
def member? : Nat → String → List Lexeme → Option ((Expression × Expression) × List Lexeme)
  | fuel + 1, name, .symbol ":" :: ls => do
    let (value, ls) ← expression? fuel false ls
    some ((.string name, value), ls)
  | _, name, ls => some ((.string name, .path .identity [.named name]), ls)

end

/-- The expression that a text spells. None when it spells none. -/
def Expression.parse? (text : String) : Option Expression := do
  let ls ← Lexeme.ofText? text
  let (e, rest) ← expression? (8 * (ls.length + 1)) true ls
  if rest.isEmpty then some e else none

end Conform.Filter
