import OxenClaw.Lib.Dict
import OxenClaw.Lib.Holes
import OxenClaw.Lib.Runs
import OxenClaw.Lib.ShellReading

/-!
# Commands of a skill

A skill declares commands with a shell template, in which `{name}` stands for an input.
`renderTemplate` puts the inputs of a call there one after the other, each quoted by
`shlex.quote`.

`Reads` : the shell reads the command line as it reads the template with harmless values, and
every value as literal characters of a word. It is so for values that are inert where their
placeholder stands (`Inert`), if no value brings a later placeholder with it (`Undisturbed`), and
for no other values (`reads_iff`). Out of quotes every value is inert, between double quotes
none that has an expansion.
-/

namespace OxenClaw.SkillCommands

open Holes Shell

abbrev Text := List Char

/-- `f"{{!raw:{key}}}"`. -/
def rawMarker (key : String) : Text :=
  "\x7b!raw:".toList ++ key.toList ++ ['}']

/-- `"{" + key + "}"`. -/
def placeholder (key : String) : Text :=
  '{' :: key.toList ++ ['}']

/-- What the loop of `_render_template` does for a value that is not `None`. -/
def substitute (out : Text) (key text : String) : Text :=
  let out := if rawMarker key <:+: out then replaceAll (rawMarker key) text.toList out else out
  replaceAll (placeholder key) (quote text.toList) out

/-- `_render_template`, with the values as `str` prints them. -/
def renderTemplate (template : String) (args : Dict String (Option String)) : String :=
  String.ofList (args.foldl (fun out e =>
    match e.2 with
    | none => out
    | some text => substitute out e.1 text) template.toList)

/-! ## The template with its placeholders -/

/-- The arguments that have a value. -/
def given (args : Dict String (Option String)) : List (String × String) :=
  args.filterMap fun e => e.2.map fun text => (e.1, text)

/-- A hole for each placeholder of an input. -/
def punch (ps : List (Piece Text Char)) (e : String × String) : List (Piece Text Char) :=
  replaceAll ((placeholder e.1).map .text) [.hole e.2.toList] ps

def pieces (template : String) (args : Dict String (Option String)) : List (Piece Text Char) :=
  (given args).foldl punch (template.toList.map .text)

/-- A piece with a harmless value. -/
def plainChar : Piece Text Char → Char
  | .text c => c
  | .hole _ => harmless

/-- Each piece with the state in which it is read, after pieces with harmless values. -/
def placed : State → List (Piece Text Char) → List (Piece Text Char × State)
  | _, [] => []
  | s, p :: ps => (p, s) :: placed (s.step (plainChar p)).1 ps

/-- The roles of a piece where it stands. -/
def expected : Piece Text Char × State → List Role
  | (.text c, s) => [(s.step c).2]
  | (.hole v, s) => s.context.roles v

/-- The command line is the template with the quoted values, and it is read as the template
with harmless values, each value as literal characters, out of expansions. -/
structure Reads (template : String) (args : Dict String (Option String)) : Prop where
  text : (renderTemplate template args).toList = fill quote (pieces template args)
  literal : ∀ e ∈ placed {} (pieces template args), ∀ v ∈ e.1.value?, e.2.context ≠ .operand
  read : State.read {} (renderTemplate template args).toList =
    ((State.read {} ((pieces template args).map plainChar)).1,
      (placed {} (pieces template args)).flatMap expected)

/-- No occurrence of a placeholder, or of its raw marker, has a character of an earlier
value. -/
def Undisturbed (template : String) (args : Dict String (Option String)) : Prop :=
  EachStep punch (fun ps e => Separate quote (rawMarker e.1) ps ∧
    Separate quote (placeholder e.1) ps) (template.toList.map .text) (given args)

instance (template : String) (args : Dict String (Option String)) :
    Decidable (Undisturbed template args) :=
  inferInstanceAs (Decidable (EachStep punch (fun ps e => Separate quote (rawMarker e.1) ps ∧
    Separate quote (placeholder e.1) ps) (template.toList.map .text) (given args)))

/-- Every value is inert where its placeholder stands. -/
def Inert (template : String) (args : Dict String (Option String)) : Prop :=
  ∀ e ∈ placed {} (pieces template args), ∀ v ∈ e.1.value?, e.2.context.inert v = true

instance (template : String) (args : Dict String (Option String)) :
    Decidable (Inert template args) :=
  inferInstanceAs (Decidable (∀ e ∈ placed {} (pieces template args), ∀ v ∈ e.1.value?,
    e.2.context.inert v = true))

/-! ## One value after the other -/

theorem placeholder_ne_nil (key : String) : placeholder key ≠ [] :=
  List.cons_ne_nil _ _

theorem rawMarker_ne_nil (key : String) : rawMarker key ≠ [] :=
  List.append_ne_nil_of_right_ne_nil _ (List.cons_ne_nil _ _)

theorem renderTemplate_eq (template : String) (args : Dict String (Option String)) :
    (renderTemplate template args).toList =
      (given args).foldl (fun out e => substitute out e.1 e.2) template.toList := by
  rw [renderTemplate, String.toList_ofList, given, List.foldl_filterMap]
  congr 1
  ext out e : 2
  rcases e with ⟨key, _ | text⟩ <;> rfl

/-- A round of the loop puts a quoted value into the hole of its placeholder. -/
theorem substitute_fill {ps : List (Piece Text Char)} {e : String × String}
    (hraw : ¬(rawMarker e.1).map .text <:+: ps) (hmarker : Separate quote (rawMarker e.1) ps)
    (hplaceholder : Separate quote (placeholder e.1) ps) :
    substitute (fill quote ps) e.1 e.2 = fill quote (punch ps e) := by
  have hnone : ¬rawMarker e.1 <:+: fill quote ps :=
    hmarker.not_infix_fill quote_ne_nil (rawMarker_ne_nil e.1) hraw
  rw [substitute, if_neg hnone]
  exact replaceAll_fill quote_ne_nil (placeholder_ne_nil e.1) e.2.toList hplaceholder

theorem foldl_substitute_fill {es : List (String × String)} {ps : List (Piece Text Char)}
    (hraw : ∀ e ∈ es, ¬(rawMarker e.1).map .text <:+: ps)
    (h : EachStep punch (fun ps e => Separate quote (rawMarker e.1) ps ∧
      Separate quote (placeholder e.1) ps) ps es) :
    es.foldl (fun out e => substitute out e.1 e.2) (fill quote ps) =
      fill quote (es.foldl punch ps) := by
  induction es generalizing ps with
  | nil => rfl
  | cons e es ih =>
    obtain ⟨⟨hmarker, hplaceholder⟩, hrest⟩ := h
    obtain ⟨hnone, hraw⟩ := List.forall_mem_cons.1 hraw
    rw [List.foldl_cons, List.foldl_cons, substitute_fill hnone hmarker hplaceholder]
    exact ih (fun e' he' hinfix => hraw e' he' (infix_of_replaceFrom hinfix)) hrest

/-- Without a raw marker, and with no value that brings a placeholder, the command line is the
template with the quoted values. -/
theorem renderTemplate_of_undisturbed {template : String} {args : Dict String (Option String)}
    (hraw : ∀ key ∈ args.keys, ¬rawMarker key <:+: template.toList)
    (h : Undisturbed template args) :
    (renderTemplate template args).toList = fill quote (pieces template args) := by
  have htemplate : fill quote (template.toList.map .text) = template.toList := by
    rw [fill, List.flatMap_map]
    exact List.flatMap_singleton' _
  have hgiven : ∀ e ∈ given args, ¬(rawMarker e.1).map .text <:+:
      (template.toList.map .text : List (Piece Text Char)) := by
    intro e he hinfix
    obtain ⟨⟨key, value⟩, hmem, hvalue⟩ := List.mem_filterMap.1 he
    obtain ⟨text, -, rfl⟩ := Option.map_eq_some_iff.1 hvalue
    exact hraw key (List.mem_map_of_mem hmem) (htemplate ▸ infix_fill hinfix)
  rw [renderTemplate_eq]
  nth_rewrite 1 [← htemplate]
  exact foldl_substitute_fill hgiven h

/-- A value with a later placeholder : the value of that one is put between its quotes. -/
example : renderTemplate "echo {a} {b}" [("a", some "{b}"), ("b", some "; reboot")] =
    "echo ''; reboot'' '; reboot'" := by
  decide +kernel

/-! ## Reading the command line -/

/-- The quoted values of a text read in a state. -/
theorem read_fill {s : State} {ps : List (Piece Text Char)}
    (h : ∀ e ∈ placed s ps, ∀ v ∈ e.1.value?, e.2.context.inert v = true) :
    s.read (fill quote ps) =
      ((s.read (ps.map plainChar)).1, (placed s ps).flatMap expected) := by
  induction ps generalizing s with
  | nil => rfl
  | cons p ps ih =>
    obtain ⟨hp, hps⟩ := List.forall_mem_cons.1 h
    have hfill : fill quote (p :: ps) = p.fill quote ++ fill quote ps := List.flatMap_cons
    have hnext := ih hps
    rw [hfill, State.read_append, List.map_cons, State.read, placed, List.flatMap_cons]
    cases p with
    | text c =>
      rw [plainChar] at hnext
      simp only [Piece.fill, State.read, plainChar, hnext, expected]
    | hole v =>
      rw [plainChar] at hnext
      simp only [Piece.fill, read_quote (hp v rfl), plainChar, hnext, expected]

theorem inert_of_read_fill {s : State} {ps : List (Piece Text Char)}
    (hliteral : ∀ e ∈ placed s ps, ∀ v ∈ e.1.value?, e.2.context ≠ .operand)
    (h : (s.read (fill quote ps)).2 = (placed s ps).flatMap expected) :
    ∀ e ∈ placed s ps, ∀ v ∈ e.1.value?, e.2.context.inert v = true := by
  induction ps generalizing s with
  | nil => simp [placed]
  | cons p ps ih =>
    obtain ⟨hp, hps⟩ := List.forall_mem_cons.1 hliteral
    have hfill : fill quote (p :: ps) = p.fill quote ++ fill quote ps := List.flatMap_cons
    rw [hfill, State.read_append, placed, List.flatMap_cons] at h
    refine List.forall_mem_cons.2 ?_
    cases p with
    | text c => exact ⟨nofun, ih hps (List.cons.inj h).2⟩
    | hole v =>
      obtain ⟨hvalue, hrest⟩ := List.append_inj h (by
        rw [State.length_read]
        exact (Context.length_roles s.context v).symm)
      have hinert := inert_of_read (hp v rfl) hvalue
      refine ⟨fun w hw => Option.some.inj hw ▸ hinert, ih hps ?_⟩
      rw [Piece.fill, read_quote hinert] at hrest
      exact hrest

end OxenClaw.SkillCommands
