import OxenClaw.Lib.Python
import OxenClaw.Pi.Messages

/-!
# Tool arguments in JSON that is nearly right

The ladder of `json_repair.py`. What `json.loads` makes of a text is a parameter, `none`
where it raises `JSONDecodeError`; Python's `None` is `Json.null`.
-/

namespace OxenClaw.JsonRepair

def backtick : Char := Char.ofNat 96
def apostrophe : Char := Char.ofNat 39

/-- The fence of a code block. -/
def fence : List Char :=
  List.replicate 3 backtick

/-- `_strip_code_fence`. -/
def stripCodeFence (s : List Char) : List Char :=
  let s := Py.strip s
  if fence.isPrefixOf s then
    let s := if '\n' ∈ s then (s.dropWhile (· ≠ '\n')).drop 1 else s
    Py.strip (if fence.isSuffixOf s then s.take (s.length - 3) else s)
  else Py.strip s

/-- A bracket is next, after blanks. -/
def closerNext (s : List Char) : Bool :=
  match s.dropWhile Py.isSpace with
  | c :: _ => c = '}' || c = ']'
  | [] => false

/-- The pattern of trailing commas : a comma before a closing bracket goes. -/
def dropTrailingCommas : List Char → List Char
  | [] => []
  | c :: cs => if c = ',' && closerNext cs then dropTrailingCommas cs else c :: dropTrailingCommas cs

/-- The patterns of smart quotes. -/
def plainQuote (c : Char) : Char :=
  if c.toNat = 0x201C || c.toNat = 0x201D then '"'
  else if c.toNat = 0x2018 || c.toNat = 0x2019 then apostrophe
  else c

/-- `_REPAIR_STEPS`, in order. -/
def repairSteps (s : List Char) : List Char :=
  (dropTrailingCommas s).map plainQuote

/-- What a single-quoted word follows. -/
def opensWord : Option Char → Bool
  | none => false
  | some c => Py.isSpace c || c = '\x7b' || c = '[' || c = ',' || c = ':'

/-- The text up to the next single quote is on one line, and a separator follows it. -/
def closesWord (s : List Char) : Bool :=
  match s.dropWhile fun c => c ≠ apostrophe && c ≠ '\n' with
  | c :: d :: _ => c = apostrophe && (Py.isSpace d || d = '\x7d' || d = ']' || d = ',' || d = ':')
  | _ => false

/-- The pattern of `_single_to_double_quotes`, after the character `prev`, inside a word
it matched or outside. -/
def requote (inside : Bool) (prev : Option Char) : List Char → List Char
  | [] => []
  | c :: cs =>
    if inside then
      if c = apostrophe then '"' :: requote false (some c) cs else c :: requote true (some c) cs
    else if c = apostrophe && opensWord prev && closesWord cs then
      '"' :: requote true (some c) cs
    else c :: requote false (some c) cs

/-- `_single_to_double_quotes`. -/
def singleToDoubleQuotes (s : List Char) : List Char :=
  requote false none s

/-- What `_balance_braces` counts. -/
structure Depths where
  curly : ℤ := 0
  square : ℤ := 0
  inString : Bool := false
  escape : Bool := false

/-- One character of `_balance_braces`. -/
def Depths.read (d : Depths) (c : Char) : Depths :=
  if d.escape then { d with escape := false }
  else if c = '\\' && d.inString then { d with escape := true }
  else if c = '"' then { d with inString := !d.inString }
  else if d.inString then d
  else if c = '\x7b' then { d with curly := d.curly + 1 }
  else if c = '\x7d' then { d with curly := d.curly - 1 }
  else if c = '[' then { d with square := d.square + 1 }
  else if c = ']' then { d with square := d.square - 1 }
  else d

/-- `_balance_braces`. -/
def balanceBraces (s : List Char) : List Char :=
  let d := s.foldl Depths.read {}
  s ++ List.replicate d.square.toNat ']' ++ List.replicate d.curly.toNat '\x7d'

/-- One rung : the text is parsed if the repair changed it. -/
def tryParse (loads : String → Option Json) (before after : List Char) (label : String) :
    Option (Json × String) :=
  if after = before then none
  else (loads (String.ofList after)).map fun v => (v, label)

/-- `repair_and_parse`. -/
def repairAndParse (loads : String → Option Json) (raw : String) : Json × String :=
  let s := raw.toList
  let candidate := stripCodeFence s
  let repaired := repairSteps candidate
  let quoted := singleToDoubleQuotes repaired
  if Py.strip s = [] then (.null, "")
  else
    ((((loads raw).map fun v => (v, "")).or (tryParse loads s candidate "code-fence")).or
      ((tryParse loads candidate repaired "regex-cleanup").or
        ((tryParse loads repaired quoted "single-quotes").or
          (tryParse loads quoted (balanceBraces quoted) "balance-braces")))).getD (.null, "")

/-- A text that parses is not repaired. -/
theorem repairAndParse_of_loads {loads : String → Option Json} {raw : String} {v : Json}
    (hblank : Py.strip raw.toList ≠ []) (h : loads raw = some v) :
    repairAndParse loads raw = (v, "") := by
  rw [repairAndParse, if_neg hblank, h]
  rfl

end OxenClaw.JsonRepair
