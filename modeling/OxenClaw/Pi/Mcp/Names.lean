import Mathlib
import OxenClaw.Lib.Dict
import OxenClaw.Lib.Numbered
import OxenClaw.Lib.Python
import OxenClaw.Pi.Messages

/-!
# Names of MCP tools

A tool of an MCP server is offered to the model as `<server>__<tool>`, both parts made safe
(`sanitizeFragment`), cut to size and numbered where they collide. Names are lists of code
points here, `lower` is `str.lower`.

`materializeMcpTools` walks the servers, names every usable tool and sorts. Its loops end
(`Numbered.exists_search_eq`), so with enough passes it returns, and what it returns is one
tool for each usable tool listed, under pairwise distinct safe names. The cap of 64 characters
holds as long as the numbers have room behind a name of one character
(`materializeMcpTools_spec`).
-/

namespace OxenClaw.Mcp

/-- `[A-Za-z0-9_-]`. -/
def isSafe (c : Char) : Bool :=
  c.isAlphanum || c == '_' || c == '-'

/-- What the model relies on of `str.lower`. -/
structure LowerLaws (lower : List Char → List Char) : Prop where
  /-- ASCII is lowered letter by letter. -/
  ascii : ∀ s : List Char, (∀ c ∈ s, c.toNat < 128) → lower s = s.map Char.toLower
  /-- Whitespace has no case. -/
  space : ∀ s : List Char, ∀ c ∈ s, Py.isSpace c = true → c ∈ lower s

def toolNameSeparator : List Char := "__".toList

def toolNameMaxPrefix : ℕ := 30

def toolNameMaxTotal : ℕ := 64

/-- `_sanitize_fragment`. -/
def sanitizeFragment (raw fallback : List Char) (maxChars : Option ℕ) : List Char :=
  let cleaned := (Py.strip raw).map fun c => if isSafe c then c else '-'
  let normalized := if cleaned = [] then fallback else cleaned
  match maxChars with
  | none => normalized
  | some m => if normalized.length > m then normalized.take m else normalized

/-- Cut a name so that it has at most `cap` characters with its number, if one is left. -/
def numbered (base : List Char) (cap n : ℕ) : List Char :=
  base.take (max 1 (cap - (Numbered.suffix n).length)) ++ Numbered.suffix n

section

variable (lower : List Char → List Char) (fuel : ℕ)

/-- `sanitize_server_name`, with the names in use after it. -/
def sanitizeServerName (raw : List Char) (usedNames : List (List Char)) :
    Option (List Char × List (List Char)) :=
  let base := sanitizeFragment raw "mcp".toList (some toolNameMaxPrefix)
  (Numbered.search lower (numbered base toolNameMaxPrefix) usedNames fuel base 2).map
    fun candidate => (candidate, usedNames ++ [lower candidate])

/-- `sanitize_tool_name`. -/
def sanitizeToolName (raw : List Char) : List Char :=
  sanitizeFragment raw "tool".toList none

/-- `normalize_reserved_names`. -/
def normalizeReservedNames (names : List (List Char)) : List (List Char) :=
  (names.filter fun n => Py.strip n ≠ []).map fun n => lower (Py.strip n)

/-- `build_safe_tool_name`. -/
def buildSafeToolName (serverName toolName : List Char) (reservedNames : List (List Char)) :
    Option (List Char) :=
  let cleanedTool := sanitizeToolName toolName
  let maxToolChars := max 1 (toolNameMaxTotal - serverName.length - toolNameSeparator.length)
  let cut := cleanedTool.take maxToolChars
  let truncatedTool := if cut = [] then "tool".toList else cut
  Numbered.search lower
    (fun n => serverName ++ toolNameSeparator ++ numbered truncatedTool maxToolChars n)
    reservedNames fuel (serverName ++ toolNameSeparator ++ truncatedTool) 2

/-! ## The adapter -/

/-- A connected client : what `list_tools` returns, or nothing where it raises. -/
structure Client where
  description : String
  tools : Option (List Args)

/-- The trimmed name of a tool that has one. -/
def usableName (tool : Args) : Option (List Char) :=
  match tool.get "name" with
  | some (.str name) => if Py.strip name.toList = [] then none else some (Py.strip name.toList)
  | _ => none

/-- A string field, if it is one. -/
def strField (tool : Args) (key : String) : String :=
  match tool.get key with
  | some (.str s) => s
  | _ => ""

/-- `_coerce_input_schema`. -/
def coerceInputSchema (raw : Option Json) : Args :=
  let fallback : Args :=
    [("type", .str "object"), ("properties", .obj []), ("additionalProperties", .bool true)]
  match raw with
  | some (.obj schema) =>
    match Args.get schema "type" with
    | none => schema ++ [("type", .str "object")]
    | some .null => schema
    | some (.str t) => if t = "object" then schema else fallback
    | _ => fallback
  | _ => fallback

/-- An entry of `flat_tools`. -/
structure FlatTool where
  serverName : List Char
  safeServer : List Char
  tool : List Char
  description : String
  inputSchema : Args

/-- `description or title or fallback`. -/
def describe (serverName : List Char) (client : Client) (tool : Args) : String :=
  if strField tool "description" ≠ "" then strField tool "description"
  else if strField tool "title" ≠ "" then strField tool "title"
  else "Provided by MCP server '" ++ String.ofList serverName ++ "' (" ++ client.description ++ ")."

/-- The entries one server contributes. -/
def flatToolsOf (serverName safeServer : List Char) (client : Client) : List FlatTool :=
  (client.tools.getD []).filterMap fun tool =>
    (usableName tool).map fun name =>
      { serverName, safeServer, tool := name
        description := describe serverName client tool
        inputSchema := coerceInputSchema (tool.get "inputSchema") }

/-- `flat_tools` of all servers, in their order. -/
def flatTools : Dict (List Char) Client → List (List Char) → Option (List FlatTool)
  | [], _ => some []
  | (serverName, client) :: clients, usedNames =>
    match sanitizeServerName lower fuel serverName usedNames with
    | none => none
    | some (safeServer, usedNames) =>
      (flatTools clients usedNames).map fun rest => flatToolsOf serverName safeServer client ++ rest

/-- `_MCPProxyTool`. -/
structure MCPProxyTool where
  name : List Char
  description : String
  inputSchema : Args
  serverName : List Char
  originalToolName : List Char
  timeoutSeconds : ℚ

/-- The proxies of the entries, each under a name that is then reserved. -/
def nameTools (timeoutSeconds : ℚ) : List FlatTool → List (List Char) → Option (List MCPProxyTool)
  | [], _ => some []
  | t :: ts, reserved =>
    match buildSafeToolName lower fuel t.safeServer t.tool reserved with
    | none => none
    | some name =>
      (nameTools timeoutSeconds ts (reserved ++ [lower name])).map fun rest =>
        { name, description := t.description, inputSchema := t.inputSchema
          serverName := t.serverName, originalToolName := t.tool, timeoutSeconds } :: rest

/-- `key=lambda t: (t[1], t[2], t[0])`. -/
def FlatTool.le (t u : FlatTool) : Bool :=
  if t.safeServer ≠ u.safeServer then decide (t.safeServer < u.safeServer)
  else if t.tool ≠ u.tool then decide (t.tool < u.tool)
  else decide (t.serverName ≤ u.serverName)

/-- `key=lambda t: t.name`. -/
def MCPProxyTool.le (t u : MCPProxyTool) : Bool :=
  decide (t.name ≤ u.name)

/-- `materialize_mcp_tools`, with at most `fuel` passes of each numbering loop. -/
def materializeMcpTools (clients : Dict (List Char) Client) (reservedNames : List (List Char))
    (timeoutSeconds : ℚ) : Option (List MCPProxyTool) :=
  match flatTools lower fuel clients [] with
  | none => none
  | some flat =>
    (nameTools lower fuel timeoutSeconds (flat.mergeSort FlatTool.le)
      (normalizeReservedNames lower reservedNames)).map fun out => out.mergeSort MCPProxyTool.le

end

/-! ## Safe characters -/

theorem forall_ascii {P : Char → Prop} (h : ∀ n < 128, P (Char.ofNat n)) (c : Char)
    (hc : c.toNat < 128) : P c := by
  have := h c.toNat hc
  rwa [Char.ofNat_toNat] at this

theorem toNat_lt_of_isSafe {c : Char} (h : isSafe c = true) : c.toNat < 128 := by
  simp only [isSafe, Char.isAlphanum, Char.isAlpha, Char.isUpper, Char.isLower, Char.isDigit,
    Bool.or_eq_true, Bool.and_eq_true, decide_eq_true_eq, beq_iff_eq, UInt32.le_iff_toNat_le] at h
  have hval : c.toNat = c.val.toNat := rfl
  rcases h with (((h | h) | h) | rfl) | rfl
  · exact hval ▸ h.2.trans_lt (by decide)
  · exact hval ▸ h.2.trans_lt (by decide)
  · exact hval ▸ h.2.trans_lt (by decide)
  · decide
  · decide

theorem isSafe_toLower {c : Char} (h : isSafe c = true) : isSafe c.toLower = true := by
  refine forall_ascii (P := fun c => isSafe c = true → isSafe c.toLower = true) ?_ c
    (toNat_lt_of_isSafe h) h
  decide

theorem isSpace_eq_false_of_isSafe {c : Char} (h : isSafe c = true) : Py.isSpace c = false := by
  refine forall_ascii (P := fun c => isSafe c = true → Py.isSpace c = false) ?_ c
    (toNat_lt_of_isSafe h) h
  decide

/-- Every character of a name is safe. -/
def Safe (s : List Char) : Prop :=
  ∀ c ∈ s, isSafe c = true

instance (s : List Char) : Decidable (Safe s) :=
  List.decidableBAll _ s

theorem isSafe_of_isDigit {c : Char} (h : c.isDigit = true) : isSafe c = true := by
  simp [isSafe, Char.isAlphanum, h]

theorem Safe.append {s t : List Char} (hs : Safe s) (ht : Safe t) : Safe (s ++ t) := by
  intro c hc
  rcases List.mem_append.1 hc with hc | hc
  · exact hs c hc
  · exact ht c hc

theorem Safe.take {s : List Char} (hs : Safe s) (n : ℕ) : Safe (s.take n) :=
  fun c hc => hs c (List.mem_of_mem_take hc)

theorem isDigit_of_mem_toDigits {n : ℕ} {c : Char} (h : c ∈ Nat.toDigits 10 n) :
    c.isDigit = true :=
  Nat.isDigit_of_mem_toDigits (by decide) (by decide) h

theorem safe_suffix (n : ℕ) : Safe (Numbered.suffix n) := by
  intro c hc
  rcases List.mem_cons.1 hc with rfl | hc
  · decide
  · exact isSafe_of_isDigit (isDigit_of_mem_toDigits hc)

theorem safe_numbered {base : List Char} (h : Safe base) (cap n : ℕ) :
    Safe (numbered base cap n) :=
  (h.take _).append (safe_suffix n)

theorem safe_sanitizeFragment (raw : List Char) {fallback : List Char} (h : Safe fallback)
    (maxChars : Option ℕ) : Safe (sanitizeFragment raw fallback maxChars) := by
  have hcleaned : Safe ((Py.strip raw).map fun c => if isSafe c then c else '-') := by
    intro c hc
    obtain ⟨c', -, rfl⟩ := List.mem_map.1 hc
    split_ifs with hsafe
    · exact hsafe
    · decide
  unfold sanitizeFragment
  dsimp only
  set cleaned := (Py.strip raw).map fun c => if isSafe c then c else '-'
  have hnormalized : Safe (if cleaned = [] then fallback else cleaned) := by
    split_ifs
    · exact h
    · exact hcleaned
  cases maxChars with
  | none => exact hnormalized
  | some m =>
    dsimp only
    split_ifs at hnormalized ⊢
    all_goals first | exact hnormalized | exact hnormalized.take m

theorem length_sanitizeFragment_le (raw fallback : List Char) (m : ℕ) :
    (sanitizeFragment raw fallback (some m)).length ≤ m := by
  unfold sanitizeFragment
  dsimp only
  set normalized := if ((Py.strip raw).map fun c => if isSafe c then c else '-') = [] then fallback
    else (Py.strip raw).map fun c => if isSafe c then c else '-'
  split_ifs with h
  · exact (List.length_take_le m normalized)
  · omega

/-- A numbered name keeps to its cap while the number leaves room for one character. -/
theorem length_numbered_le {base : List Char} {cap n : ℕ}
    (h : (Numbered.suffix n).length + 1 ≤ cap) : (numbered base cap n).length ≤ cap := by
  rw [numbered, List.length_append, List.length_take]
  omega

/-! ## Names ignoring case -/

variable {lower : List Char → List Char}

theorem LowerLaws.lower_safe (hl : LowerLaws lower) {s : List Char} (h : Safe s) :
    lower s = s.map Char.toLower :=
  hl.ascii s fun c hc => toNat_lt_of_isSafe (h c hc)

theorem LowerLaws.safe_lower (hl : LowerLaws lower) {s : List Char} (h : Safe s) :
    Safe (lower s) := by
  rw [hl.lower_safe h]
  intro c hc
  obtain ⟨c', hc', rfl⟩ := List.mem_map.1 hc
  exact isSafe_toLower (h c' hc')

theorem toLower_of_isDigit {c : Char} (h : c.isDigit = true) : c.toLower = c := by
  refine forall_ascii (P := fun c => c.isDigit = true → c.toLower = c) ?_ c
    (toNat_lt_of_isSafe (isSafe_of_isDigit h)) h
  decide

theorem toLower_suffix (n : ℕ) : (Numbered.suffix n).map Char.toLower = Numbered.suffix n := by
  have hdigits : (Nat.toDigits 10 n).map Char.toLower = Nat.toDigits 10 n :=
    (List.map_congr_left fun c hc => toLower_of_isDigit (isDigit_of_mem_toDigits hc)).trans
      (List.map_id _)
  rw [Numbered.suffix, List.map_cons, hdigits]
  rfl

/-- Numbers make names different, also ignoring case. -/
theorem lower_numbered_inj (hl : LowerLaws lower) {front base : List Char} (hf : Safe front)
    (hb : Safe base) (cap i j : ℕ)
    (h : lower (front ++ numbered base cap i) = lower (front ++ numbered base cap j)) : i = j := by
  rw [hl.lower_safe (hf.append (safe_numbered hb cap i)),
    hl.lower_safe (hf.append (safe_numbered hb cap j))] at h
  simp only [numbered, List.map_append, toLower_suffix, ← List.append_assoc] at h
  exact Numbered.suffix_inj h

/-- A server gets a safe name of its own, cut to size while its number has room. -/
theorem sanitizeServerName_spec (hl : LowerLaws lower) {fuel : ℕ} (raw : List Char)
    {usedNames : List (List Char)} (hfuel : usedNames.length + 2 ≤ fuel) :
    ∃ name, sanitizeServerName lower fuel raw usedNames =
        some (name, usedNames ++ [lower name]) ∧ Safe name ∧
      (usedNames.length + 2 < 10 ^ 28 → name.length ≤ toolNameMaxPrefix) := by
  set base := sanitizeFragment raw "mcp".toList (some toolNameMaxPrefix) with hbase
  have hsafe : Safe base := safe_sanitizeFragment raw (by decide) _
  have hfront : Safe [] := by simp [Safe]
  obtain ⟨name, hsearch, -, hcase⟩ := Numbered.exists_search_eq (n := 2)
    (lower_numbered_inj hl hfront hsafe toolNameMaxPrefix) base hfuel
  refine ⟨name, ?_, ?_, fun hroom => ?_⟩
  · rw [sanitizeServerName, ← hbase]
    exact congrArg (Option.map _) hsearch
  · rcases hcase with rfl | ⟨m, -, -, rfl⟩
    · exact hsafe
    · exact safe_numbered hsafe _ m
  · rcases hcase with rfl | ⟨m, -, hm, rfl⟩
    · exact length_sanitizeFragment_le _ _ _
    · have hsuffix := Numbered.length_suffix_le (n := m) (k := 28) (by omega) (by omega)
      exact length_numbered_le (by rw [toolNameMaxPrefix]; omega)

/-- A tool gets a safe name that is not reserved, within the cap while its number has room. -/
theorem buildSafeToolName_spec (hl : LowerLaws lower) {fuel : ℕ} {serverName : List Char}
    (hserver : Safe serverName) (toolName : List Char) {reservedNames : List (List Char)}
    (hfuel : reservedNames.length + 2 ≤ fuel) :
    ∃ name, buildSafeToolName lower fuel serverName toolName reservedNames = some name ∧
      Safe name ∧ name ≠ [] ∧ lower name ∉ reservedNames ∧
      (serverName.length ≤ toolNameMaxPrefix → reservedNames.length + 2 < 10 ^ 30 →
        name.length ≤ toolNameMaxTotal) := by
  set cap := max 1 (toolNameMaxTotal - serverName.length - toolNameSeparator.length) with hcap
  set cut := (sanitizeToolName toolName).take cap with hcut
  set base := if cut = [] then "tool".toList else cut with hbase
  have hfront : Safe (serverName ++ toolNameSeparator) := hserver.append (by decide)
  have hsafe : Safe base := by
    rw [hbase]
    split_ifs
    · decide
    · exact (safe_sanitizeFragment toolName (by decide) none).take cap
  obtain ⟨name, hsearch, hkey, hcase⟩ := Numbered.exists_search_eq (n := 2)
    (lower_numbered_inj hl hfront hsafe cap)
    (serverName ++ toolNameSeparator ++ base) hfuel
  refine ⟨name, hsearch, ?_, ?_, hkey, fun hprefix hroom => ?_⟩
  · rcases hcase with rfl | ⟨m, -, -, rfl⟩
    · exact hfront.append hsafe
    · exact hfront.append (safe_numbered hsafe cap m)
  · rcases hcase with rfl | ⟨m, -, -, rfl⟩ <;> simp [toolNameSeparator]
  · have hseparator : toolNameSeparator.length = 2 := rfl
    have hlarge : 32 ≤ cap ∧ serverName.length + 2 + cap = 64 := by
      simp only [toolNameMaxPrefix, toolNameMaxTotal] at hprefix hcap
      omega
    rcases hcase with rfl | ⟨m, -, hm, rfl⟩
    · have hlength : base.length ≤ cap := by
        rw [hbase]
        split_ifs
        · exact le_trans (by decide : "tool".toList.length ≤ 32) hlarge.1
        · exact List.length_take_le _ _
      simp only [List.length_append, hseparator, toolNameMaxTotal]
      omega
    · have hsuffix := Numbered.length_suffix_le (n := m) (k := 30) (by omega) (by omega)
      have hlength : (numbered base cap m).length ≤ cap := length_numbered_le (by omega)
      simp only [List.length_append, hseparator, toolNameMaxTotal]
      omega

/-! ## What is offered -/

/-- Where a call of the tool goes. -/
def MCPProxyTool.route (t : MCPProxyTool) : List Char × List Char :=
  (t.serverName, t.originalToolName)

def FlatTool.route (t : FlatTool) : List Char × List Char :=
  (t.serverName, t.tool)

/-- The usable tools the servers list, with their servers. -/
def listed (clients : Dict (List Char) Client) : List (List Char × List Char) :=
  clients.flatMap fun e => (e.2.tools.getD []).filterMap fun tool =>
    (usableName tool).map fun name => (e.1, name)

theorem route_flatToolsOf (serverName safeServer : List Char) (client : Client) :
    (flatToolsOf serverName safeServer client).map FlatTool.route =
      (client.tools.getD []).filterMap fun tool =>
        (usableName tool).map fun name => (serverName, name) := by
  rw [flatToolsOf, List.map_filterMap]
  simp only [Option.map_map]
  rfl

theorem safeServer_of_mem_flatToolsOf {serverName safeServer : List Char} {client : Client}
    {t : FlatTool} (h : t ∈ flatToolsOf serverName safeServer client) :
    t.serverName = serverName ∧ t.safeServer = safeServer := by
  obtain ⟨tool, -, ht⟩ := List.mem_filterMap.1 h
  obtain ⟨name, -, rfl⟩ := Option.map_eq_some_iff.1 ht
  exact ⟨rfl, rfl⟩

/-- Walking the servers ends, lists every usable tool and names every server. -/
theorem flatTools_spec (hl : LowerLaws lower) {fuel : ℕ} (clients : Dict (List Char) Client)
    {usedNames : List (List Char)} (hfuel : usedNames.length + clients.length + 1 ≤ fuel) :
    ∃ flat, flatTools lower fuel clients usedNames = some flat ∧
      flat.map FlatTool.route = listed clients ∧
      ∀ t ∈ flat, Safe t.safeServer ∧
        (∃ used used', sanitizeServerName lower fuel t.serverName used =
          some (t.safeServer, used')) ∧
        (usedNames.length + clients.length + 1 < 10 ^ 28 →
          t.safeServer.length ≤ toolNameMaxPrefix) := by
  induction clients generalizing usedNames with
  | nil => exact ⟨[], rfl, rfl, by simp⟩
  | cons e clients ih =>
    obtain ⟨serverName, client⟩ := e
    simp only [List.length_cons] at hfuel ⊢
    obtain ⟨name, hname, hsafe, hroom⟩ :=
      sanitizeServerName_spec hl serverName (by omega : usedNames.length + 2 ≤ fuel)
    have hfuel' : (usedNames ++ [lower name]).length + clients.length + 1 ≤ fuel := by
      simp only [List.length_append, List.length_singleton]
      omega
    obtain ⟨rest, hrest, hroutes, hservers⟩ := ih hfuel'
    refine ⟨flatToolsOf serverName name client ++ rest, ?_, ?_, fun t ht => ?_⟩
    · rw [flatTools, hname]
      dsimp only
      rw [hrest]
      rfl
    · rw [List.map_append, hroutes, route_flatToolsOf]
      rfl
    · rcases List.mem_append.1 ht with ht | ht
      · obtain ⟨hserver, hsafeServer⟩ := safeServer_of_mem_flatToolsOf ht
        rw [hserver, hsafeServer]
        exact ⟨hsafe, ⟨_, _, hname⟩, fun h => hroom (by omega)⟩
      · obtain ⟨hsafe', hbuilt, hroom'⟩ := hservers t ht
        refine ⟨hsafe', hbuilt, fun h => hroom' ?_⟩
        simp only [List.length_append, List.length_singleton]
        omega

/-- Naming the tools ends, and names each once, apart from what was reserved. -/
theorem nameTools_spec (hl : LowerLaws lower) {fuel : ℕ} (timeoutSeconds : ℚ)
    (ts : List FlatTool) {reserved : List (List Char)}
    (hsafe : ∀ t ∈ ts, Safe t.safeServer) (hfuel : reserved.length + ts.length + 1 ≤ fuel) :
    ∃ out, nameTools lower fuel timeoutSeconds ts reserved = some out ∧
      out.map MCPProxyTool.route = ts.map FlatTool.route ∧
      (out.map fun t => lower t.name).Nodup ∧
      (∀ t ∈ out, Safe t.name ∧ t.name ≠ [] ∧ lower t.name ∉ reserved) ∧
      (∀ t ∈ out, ∃ u ∈ ts, u.route = t.route ∧ ∃ taken,
        buildSafeToolName lower fuel u.safeServer t.originalToolName taken = some t.name) ∧
      ((∀ t ∈ ts, t.safeServer.length ≤ toolNameMaxPrefix) →
        reserved.length + ts.length + 1 < 10 ^ 30 →
        ∀ t ∈ out, t.name.length ≤ toolNameMaxTotal) := by
  induction ts generalizing reserved with
  | nil => exact ⟨[], rfl, rfl, List.nodup_nil, by simp, by simp, by simp⟩
  | cons t ts ih =>
    simp only [List.length_cons] at hfuel ⊢
    obtain ⟨name, hname, hnameSafe, hne, hfresh, hroom⟩ := buildSafeToolName_spec hl
      (hsafe t List.mem_cons_self) t.tool (by omega : reserved.length + 2 ≤ fuel)
    have hfuel' : (reserved ++ [lower name]).length + ts.length + 1 ≤ fuel := by
      simp only [List.length_append, List.length_singleton]
      omega
    obtain ⟨rest, hrest, hroutes, hnodup, hnames, hbuilt, hlengths⟩ :=
      ih (fun u hu => hsafe u (List.mem_cons_of_mem _ hu)) hfuel'
    refine ⟨⟨name, t.description, t.inputSchema, t.serverName, t.tool, timeoutSeconds⟩ :: rest,
      ?_, ?_, ?_, fun u hu => ?_, fun u hu => ?_, fun hservers hcount u hu => ?_⟩
    · rw [nameTools, hname]
      dsimp only
      rw [hrest]
      rfl
    · rw [List.map_cons, List.map_cons, hroutes]
      rfl
    · refine List.nodup_cons.2 ⟨fun hmem => ?_, hnodup⟩
      obtain ⟨u, hu, heq⟩ := List.mem_map.1 hmem
      exact (hnames u hu).2.2 (List.mem_append_right _ (List.mem_singleton.2 heq))
    · rcases List.mem_cons.1 hu with rfl | hu
      · exact ⟨hnameSafe, hne, hfresh⟩
      · obtain ⟨h1, h2, h3⟩ := hnames u hu
        exact ⟨h1, h2, fun hmem => h3 (List.mem_append_left _ hmem)⟩
    · rcases List.mem_cons.1 hu with rfl | hu
      · exact ⟨t, List.mem_cons_self, rfl, reserved, hname⟩
      · obtain ⟨v, hv, hroute, htaken⟩ := hbuilt u hu
        exact ⟨v, List.mem_cons_of_mem _ hv, hroute, htaken⟩
    · rcases List.mem_cons.1 hu with rfl | hu
      · exact hroom (hservers t List.mem_cons_self) (by omega)
      · refine hlengths (fun v hv => hservers v (List.mem_cons_of_mem _ hv)) ?_ u hu
        simp only [List.length_append, List.length_singleton]
        omega

/-- What the model is offered : one tool for each usable tool listed, routed to its server
under its trimmed name and named after both, under safe names that are pairwise distinct and
not reserved, also ignoring case. -/
structure Offers (lower : List Char → List Char) (fuel : ℕ) (clients : Dict (List Char) Client)
    (reservedNames : List (List Char)) (out : List MCPProxyTool) : Prop where
  safe : ∀ t ∈ out, Safe t.name
  distinct : (out.map fun t => lower t.name).Nodup
  unreserved : ∀ t ∈ out, ∀ r ∈ reservedNames, lower t.name ≠ lower r
  routed : (out.map MCPProxyTool.route).Perm (listed clients)
  built : ∀ t ∈ out, ∃ used used' server taken,
    sanitizeServerName lower fuel t.serverName used = some (server, used') ∧
      buildSafeToolName lower fuel server t.originalToolName taken = some t.name

theorem strip_eq_self {s : List Char} (h : ∀ c ∈ s, Py.isSpace c = false) : Py.strip s = s := by
  obtain ⟨before, after, hs, hbefore, hafter⟩ := Py.exists_append_strip s
  have hnone : ∀ l : List Char, (∀ c ∈ l, Py.isSpace c = true) → (∀ c ∈ l, c ∈ s) → l = [] := by
    intro l hl hsub
    refine List.eq_nil_iff_forall_not_mem.2 fun c hc => ?_
    have := hl c hc
    rw [h c (hsub c hc)] at this
    exact absurd this (by simp)
  have hb := hnone before hbefore fun c hc => by rw [hs]; simp [hc]
  have ha := hnone after hafter fun c hc => by rw [hs]; simp [hc]
  rw [hb, ha, List.nil_append, List.append_nil] at hs
  exact hs.symm

/-- A safe name that no normalised reserved name is, is none of the reserved names. -/
theorem lower_ne_reserved (hl : LowerLaws lower) {name : List Char} (hsafe : Safe name)
    (hne : name ≠ []) {reservedNames : List (List Char)}
    (hfresh : lower name ∉ normalizeReservedNames lower reservedNames) :
    ∀ r ∈ reservedNames, lower name ≠ lower r := by
  intro r hr heq
  have hspace : ∀ c ∈ r, Py.isSpace c = false := by
    intro c hc
    by_contra hc'
    have hmem := hl.space r c hc (by simpa using hc')
    rw [← heq] at hmem
    exact hc' (isSpace_eq_false_of_isSafe (hl.safe_lower hsafe c hmem))
  have hstrip := strip_eq_self hspace
  have hr' : r ≠ [] := by
    rintro rfl
    rw [hl.lower_safe hsafe, hl.lower_safe (s := []) (by simp [Safe])] at heq
    exact hne (List.map_eq_nil_iff.1 heq)
  refine hfresh (List.mem_map.2 ⟨r, List.mem_filter.2 ⟨hr, ?_⟩, ?_⟩)
  · simpa [hstrip] using hr'
  · rw [hstrip, heq]

/-- With enough passes the tools are returned, and they are what the model is to be offered.
Their names have at most 64 characters as long as servers and tools can be numbered with 28
and 30 digits. -/
theorem materializeMcpTools_spec (hl : LowerLaws lower) (clients : Dict (List Char) Client)
    (reservedNames : List (List Char)) (timeoutSeconds : ℚ) {fuel : ℕ}
    (hfuel : clients.length + reservedNames.length + (listed clients).length + 2 ≤ fuel) :
    ∃ out, materializeMcpTools lower fuel clients reservedNames timeoutSeconds = some out ∧
      Offers lower fuel clients reservedNames out ∧
      (clients.length + 1 < 10 ^ 28 →
        reservedNames.length + (listed clients).length + 1 < 10 ^ 30 →
        ∀ t ∈ out, t.name.length ≤ toolNameMaxTotal) := by
  have hfuel' : ([] : List (List Char)).length + clients.length + 1 ≤ fuel := by
    simp only [List.length_nil]
    omega
  obtain ⟨flat, hflat, hroutes, hservers⟩ := flatTools_spec hl clients hfuel'
  have hcount : flat.length = (listed clients).length := by
    rw [← hroutes, List.length_map]
  have hreserved : (normalizeReservedNames lower reservedNames).length ≤ reservedNames.length := by
    rw [normalizeReservedNames, List.length_map]
    exact List.length_filter_le _ _
  set sorted := flat.mergeSort FlatTool.le with hsorted
  have hperm : sorted.Perm flat := List.mergeSort_perm _ _
  have hfuelNames : (normalizeReservedNames lower reservedNames).length + sorted.length + 1 ≤ fuel := by
    rw [hperm.length_eq, hcount]
    omega
  obtain ⟨named, hnamed, hnamedRoutes, hnodup, hnames, hbuilt, hlengths⟩ :=
    nameTools_spec hl timeoutSeconds sorted (fun t ht => (hservers t (hperm.subset ht)).1) hfuelNames
  have hout : (named.mergeSort MCPProxyTool.le).Perm named := List.mergeSort_perm _ _
  refine ⟨named.mergeSort MCPProxyTool.le, ?_, ⟨fun t ht => ?_, ?_, fun t ht => ?_, ?_,
    fun t ht => ?_⟩, fun hclients htools t ht => ?_⟩
  · rw [materializeMcpTools, hflat]
    dsimp only
    rw [← hsorted, hnamed]
    rfl
  · exact (hnames t (hout.subset ht)).1
  · exact (hout.map _).nodup_iff.2 hnodup
  · obtain ⟨hsafe, hne, hfresh⟩ := hnames t (hout.subset ht)
    exact lower_ne_reserved hl hsafe hne hfresh
  · have hflatRoutes := hperm.map FlatTool.route
    rw [hroutes, ← hnamedRoutes] at hflatRoutes
    exact (hout.map _).trans hflatRoutes
  · obtain ⟨u, hu, hroute, taken, htaken⟩ := hbuilt t (hout.subset ht)
    obtain ⟨-, ⟨used, used', hused⟩, -⟩ := hservers u (hperm.subset hu)
    have hserver : u.serverName = t.serverName := congrArg Prod.fst hroute
    exact ⟨used, used', u.safeServer, taken, hserver ▸ hused, htaken⟩
  · refine hlengths (fun u hu => ?_) ?_ t (hout.subset ht)
    · exact (hservers u (hperm.subset hu)).2.2 (by rw [List.length_nil]; omega)
    · rw [hperm.length_eq, hcount]
      omega

/-! ## The cap -/

/-- `str.lower` on ASCII. -/
def asciiLower (s : List Char) : List Char :=
  s.map Char.toLower

theorem toLower_of_isSpace {c : Char} (h : Py.isSpace c = true) : c.toLower = c := by
  by_cases hc : c.toNat < 128
  · refine forall_ascii (P := fun c => Py.isSpace c = true → c.toLower = c) ?_ c hc h
    decide
  · have hupper : ¬(c.val ≥ 65 ∧ c.val ≤ 90) := by
      rintro ⟨-, hle⟩
      have hval : c.toNat = c.val.toNat := rfl
      have := UInt32.le_iff_toNat_le.1 hle
      exact hc (hval ▸ this.trans_lt (by decide))
    unfold Char.toLower
    simp [hupper]

theorem asciiLower_laws : LowerLaws asciiLower where
  ascii _ _ := rfl
  space _ c hc h := List.mem_map.2 ⟨c, hc, toLower_of_isSpace h⟩

/-- One server that lists a tool again and again. -/
def repeating (n : ℕ) : Dict (List Char) Client :=
  [("s".toList, ⟨"stdio", some (List.replicate n [("name", .str "a")])⟩)]

theorem length_listed_repeating (n : ℕ) : (listed (repeating n)).length = n := by
  have hname : usableName [("name", .str "a")] = some "a".toList := by decide
  simp [listed, repeating, hname]

/-- A short name, spelled out in 64 places. -/
def places (s : List Char) (i : Fin 64) : Option (Fin 128) :=
  s[(i : ℕ)]?.map fun c => Fin.ofNat 128 c.toNat

theorem places_inj {s t : List Char} (hs : Safe s) (ht : Safe t) (hsl : s.length ≤ 64)
    (htl : t.length ≤ 64) (h : places s = places t) : s = t := by
  refine List.ext_getElem? fun i => ?_
  by_cases hi : i < 64
  · have hplace : s[i]?.map (fun c => Fin.ofNat 128 c.toNat) =
        t[i]?.map fun c => Fin.ofNat 128 c.toNat := congrFun h ⟨i, hi⟩
    cases hc : s[i]? with
    | none => simpa [hc, eq_comm] using hplace
    | some c =>
      rw [hc] at hplace
      obtain ⟨d, hd, hcd⟩ := Option.map_eq_some_iff.1 hplace.symm
      have hc' := toNat_lt_of_isSafe (hs c (List.mem_of_getElem? hc))
      have hd' := toNat_lt_of_isSafe (ht d (List.mem_of_getElem? hd))
      have hval : d.toNat % 128 = c.toNat % 128 := congrArg Fin.val hcd
      rw [Nat.mod_eq_of_lt hc', Nat.mod_eq_of_lt hd'] at hval
      rw [hd, ← Char.ofNat_toNat c, ← Char.ofNat_toNat d, hval]
  · rw [List.getElem?_eq_none (by omega), List.getElem?_eq_none (by omega)]

/-- No offer of that many tools under short names exists. -/
theorem repeating_exceeds_cap : ¬ ∀ lower : List Char → List Char, LowerLaws lower →
    ∀ (clients : Dict (List Char) Client) (reservedNames : List (List Char))
      (timeoutSeconds : ℚ), ∃ fuel out,
        materializeMcpTools lower fuel clients reservedNames timeoutSeconds = some out ∧
        Offers lower fuel clients reservedNames out ∧
        ∀ t ∈ out, t.name.length ≤ toolNameMaxTotal := by
  intro h
  obtain ⟨fuel, out, -, hoffers, hcap⟩ :=
    h asciiLower asciiLower_laws (repeating (129 ^ 64 + 1)) [] 60
  have hlength : out.length = 129 ^ 64 + 1 := by
    rw [← List.length_map (f := MCPProxyTool.route), hoffers.routed.length_eq,
      length_listed_repeating]
  have hnames : (out.map fun t => places t.name).Nodup := by
    refine List.Nodup.map_on (fun t ht u hu heq => ?_) (List.Nodup.of_map _ hoffers.distinct)
    have hname := places_inj (hoffers.safe t ht) (hoffers.safe u hu) (hcap t ht) (hcap u hu) heq
    have hlower : asciiLower t.name = asciiLower u.name := congrArg asciiLower hname
    exact List.inj_on_of_nodup_map hoffers.distinct ht hu hlower
  have hle := hnames.length_le_card
  rw [List.length_map, hlength, Fintype.card_fun, Fintype.card_option, Fintype.card_fin,
    Fintype.card_fin] at hle
  exact absurd hle (by omega)

theorem materializeMcpTools_spec_one : ∃ out,
    materializeMcpTools asciiLower 5 (repeating 1) [] 60 = some out ∧
      Offers asciiLower 5 (repeating 1) [] out ∧
      ((repeating 1).length + 1 < 10 ^ 28 →
        ([] : List (List Char)).length + (listed (repeating 1)).length + 1 < 10 ^ 30 →
        ∀ t ∈ out, t.name.length ≤ toolNameMaxTotal) :=
  materializeMcpTools_spec asciiLower_laws (repeating 1) [] 60 (by decide)

end OxenClaw.Mcp
