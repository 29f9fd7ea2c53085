import OxenClaw.Lib.Utf8
import OxenClaw.Pi.Run.JsonLoads

/-!
# NDJSON framing

`read_messages` and `encode_message` of `acp/framing.py`, over the bytes of a stream. `json.dumps`
is a parameter, and what is asked of it is `Encodes` : the text is read back, is one line and stands
in braces. The encodings `json.loads` detects for other bytes are a parameter too.

A stream that is cut off inside the JSON text of a message does not end as a clean end of stream :
the part that came is a line, and it is malformed. So the messages that came are read without an
exception exactly if the cut is at the end of a line or right before it (`readMessages_eq_iff`).
-/

namespace OxenClaw.Acp

open JsonReader

/-- How `read_messages` ends. -/
inductive Ending where
  | eof
  /-- `AcpFramingError` -/
  | framingError
  /-- `UnicodeDecodeError` of `json.loads`, which is not caught. -/
  | unicodeError
  deriving DecidableEq

/-- What `readline` returns until the end of the stream. -/
def readLines : List UInt8 → List (List UInt8)
  | [] => []
  | b :: bs =>
    if b = 10 then [b] :: readLines bs
    else
      match readLines bs with
      | [] => [[b]]
      | line :: rest => (b :: line) :: rest

/-- The white space of `bytes`. -/
def isSpaceByte (b : UInt8) : Bool :=
  b = 32 || (9 ≤ b.toNat && b.toNat ≤ 13)

/-- `line.strip()`. -/
def stripBytes (line : List UInt8) : List UInt8 :=
  (line.dropWhile isSpaceByte).rdropWhile isSpaceByte

/-- `json.detect_encoding` finds UTF-8 : no byte order mark, and no zero among the first two bytes
of two or of at least four. -/
def detectsUtf8 (line : List UInt8) : Bool :=
  !([0xFE, 0xFF].isPrefixOf line) && !([0xFF, 0xFE].isPrefixOf line) &&
    !([0xEF, 0xBB, 0xBF].isPrefixOf line) && !([0, 0, 0xFE, 0xFF].isPrefixOf line) &&
    ((line.length ≠ 2 && line.length < 4) || !(line.take 2).contains 0)

/-- The JSON codec : what `float` makes of a numeral, the other encodings, and `json.dumps` with
`ensure_ascii=False`. -/
structure Codec where
  float : List Char → ℚ
  decodeOther : List UInt8 → Option (List Char)
  dumps : Args → List Char

/-- `json.loads` of a stripped line, and the check for an object. -/
def Codec.parse (codec : Codec) (line : List UInt8) : Except Ending Args :=
  match if detectsUtf8 line then decodeUtf8 line else codec.decodeOther line with
  | none => .error .unicodeError
  | some text =>
    match (jsonReader codec.float).loads text with
    | some (.obj fields) => .ok fields
    | _ => .error .framingError

/-- `read_messages` : the messages it yields, and its end. -/
def readMessages (codec : Codec) (maxLineBytes : ℕ) : List (List UInt8) → List Args × Ending
  | [] => ([], .eof)
  | line :: rest =>
    if maxLineBytes < line.length then ([], .framingError)
    else if stripBytes line = [] then readMessages codec maxLineBytes rest
    else
      match codec.parse (stripBytes line) with
      | .error e => ([], e)
      | .ok value =>
        let read := readMessages codec maxLineBytes rest
        (value :: read.1, read.2)

/-- `encode_message`. -/
def encodeMessage (codec : Codec) (message : Args) : List UInt8 :=
  utf8 (codec.dumps message ++ ['\n'])

/-- The JSON text of a message is read back, is one line and stands in braces. -/
structure Codec.Encodes (codec : Codec) (message : Args) : Prop where
  loads : (jsonReader codec.float).loads (codec.dumps message) = some (.obj message)
  oneLine : '\n' ∉ codec.dumps message
  head? : (codec.dumps message).head? = some '\x7b'
  getLast? : (codec.dumps message).getLast? = some '\x7d'

/-- The messages whose JSON text is within the first `n` bytes. -/
def within (codec : Codec) : List Args → ℕ → List Args
  | [], _ => []
  | m :: ms, n =>
    if (utf8 (codec.dumps m)).length ≤ n then
      m :: within codec ms (n - (encodeMessage codec m).length)
    else []

/-- The stream is cut at the end of a line, or right before the end. -/
def CutAtLine (codec : Codec) (ms : List Args) (stream : List UInt8) : Prop :=
  ∃ sent rest, ms = sent ++ rest ∧
    (stream = sent.flatMap (encodeMessage codec) ∨
      stream ++ [10] = sent.flatMap (encodeMessage codec))

variable {codec : Codec} {maxLineBytes : ℕ} {m : Args}

/-! ## Lines -/

/-- A line without its end. -/
theorem readLines_of_notMem {bs : List UInt8} (hbs : bs ≠ []) (h : 10 ∉ bs) :
    readLines bs = [bs] := by
  induction bs with
  | nil => exact absurd rfl hbs
  | cons b bs ih =>
    obtain ⟨hb, hbs⟩ := not_or.1 (mt List.mem_cons.2 h)
    rw [readLines, if_neg (Ne.symm hb)]
    rcases bs with _ | ⟨b', bs⟩
    · rfl
    · rw [ih (List.cons_ne_nil _ _) hbs]

/-- A line with its end. -/
theorem readLines_append {bs : List UInt8} (h : 10 ∉ bs) (rest : List UInt8) :
    readLines (bs ++ 10 :: rest) = (bs ++ [10]) :: readLines rest := by
  induction bs with
  | nil => rw [List.nil_append, readLines, if_pos rfl, List.nil_append]
  | cons b bs ih =>
    obtain ⟨hb, hbs⟩ := not_or.1 (mt List.mem_cons.2 h)
    rw [List.cons_append, readLines, if_neg (Ne.symm hb), ih hbs, List.cons_append]

/-- Bytes that begin with no white space are stripped at the end. -/
theorem stripBytes_cons {b : UInt8} (hb : isSpaceByte b = false) (bs : List UInt8) :
    stripBytes (b :: bs) = (b :: bs).rdropWhile isSpaceByte := by
  rw [stripBytes, List.dropWhile_cons_of_neg (by simp [hb])]

/-! ## The JSON text of a message -/

/-- The bytes of the text : a brace, a second byte that is not zero, and a brace at the end. -/
theorem Codec.Encodes.bytes (h : codec.Encodes m) : ∃ b bs, utf8 (codec.dumps m) = 0x7B :: b :: bs ∧
    b ≠ 0 ∧ (0x7B :: b :: bs).getLast? = some 0x7D := by
  obtain ⟨init, hinit⟩ := List.getLast?_eq_some_iff.1 h.getLast?
  rcases htext : codec.dumps m with _ | ⟨c, _ | ⟨d, rest⟩⟩
  · rw [htext] at hinit
    simp at hinit
  · have hhead := h.head?
    have hlast := h.getLast?
    rw [htext] at hhead hlast
    cases hhead
    cases hlast
  · have hhead := h.head?
    rw [htext] at hhead
    obtain rfl : c = '\x7b' := Option.some.inj hhead
    have htoken : isToken d = true := by
      have hloads := h.loads
      rw [htext, JsonReader.loads, readFrom_cons] at hloads
      obtain ⟨s, hstep, hrest⟩ := Option.bind_eq_some_iff.1 hloads
      obtain rfl : { frames := [.obj [] []], mode := .firstKey } = s := Option.some.inj hstep
      rw [readFrom_cons] at hrest
      obtain ⟨s', hstep', -⟩ := Option.bind_eq_some_iff.1 hrest
      by_contra hd
      rw [step_of_not_isToken _ rfl (by simpa using hd)] at hstep'
      cases hstep'
    have hlt := toNat_lt_of_isToken htoken
    have hd : String.utf8EncodeChar d = [UInt8.ofNat d.toNat] := utf8EncodeChar_of_lt hlt
    refine ⟨UInt8.ofNat d.toNat, utf8 rest, ?_, ?_, ?_⟩
    · rw [utf8_cons, utf8_cons, hd]
      rfl
    · intro hzero
      have hnat : d.toNat = 0 := by
        have hof := congrArg UInt8.toNat hzero
        rwa [UInt8.toNat_ofNat_of_lt' (lt_trans hlt (by decide))] at hof
      have hchar : d = Char.ofNat 0 := by rw [← hnat, Char.ofNat_toNat]
      rw [hchar] at htoken
      cases htoken
    · have hutf8 : utf8 (codec.dumps m) = utf8 init ++ [0x7D] := by
        rw [hinit, utf8_append]
        rfl
      rw [htext, utf8_cons, utf8_cons, hd] at hutf8
      change 0x7B :: UInt8.ofNat d.toNat :: utf8 rest = _ at hutf8
      rw [hutf8, List.getLast?_concat]

theorem Codec.Encodes.notMem (h : codec.Encodes m) : 10 ∉ utf8 (codec.dumps m) :=
  fun hmem => h.oneLine (mem_of_mem_utf8 (by decide) hmem)

/-- The text is taken for UTF-8, and so is every part of it from the beginning. -/
theorem detectsUtf8_of_prefix {b : UInt8} {bs line : List UInt8} (hb : b ≠ 0)
    (h : line <+: 0x7B :: b :: bs) (hne : line ≠ []) : detectsUtf8 line = true := by
  rcases line with _ | ⟨x, _ | ⟨y, line⟩⟩
  · exact absurd rfl hne
  · obtain ⟨rest, hrest⟩ := h
    obtain ⟨rfl, -⟩ := List.cons.inj hrest
    rfl
  · obtain ⟨rest, hrest⟩ := h
    simp only [List.cons_append, List.cons.injEq] at hrest
    obtain ⟨rfl, rfl, -⟩ := hrest
    simp [detectsUtf8, List.isPrefixOf, Ne.symm hb]

/-- The line of a message is parsed. -/
theorem parse_message (h : codec.Encodes m) :
    codec.parse (utf8 (codec.dumps m)) = .ok m := by
  obtain ⟨b, bs, hbytes, hb, -⟩ := h.bytes
  have hdetect : detectsUtf8 (utf8 (codec.dumps m)) = true := by
    rw [hbytes]
    exact detectsUtf8_of_prefix hb (List.prefix_refl _) (List.cons_ne_nil _ _)
  simp only [Codec.parse, hdetect, if_true, decodeUtf8_utf8, h.loads]

/-- A part of it is not. -/
theorem parse_part (h : codec.Encodes m) {line : List UInt8}
    (hstart : line <+: utf8 (codec.dumps m)) (hne : line ≠ [])
    (hpart : line ≠ utf8 (codec.dumps m)) :
    ∃ e, codec.parse line = .error e ∧ e ≠ .eof := by
  obtain ⟨b, bs, hbytes, hb, -⟩ := h.bytes
  have hdetect : detectsUtf8 line = true := detectsUtf8_of_prefix hb (hbytes ▸ hstart) hne
  unfold Codec.parse
  rw [hdetect, if_pos rfl]
  rcases hdecode : decodeUtf8 line with _ | text
  · exact ⟨.unicodeError, rfl, nofun⟩
  · obtain ⟨rest, hrest⟩ := prefix_of_decodeUtf8 hstart hdecode
    have hloads : (jsonReader codec.float).loads text = none := by
      have hall := h.loads
      rw [← hrest] at hall
      refine loads_eq_none_of_prefix _ hall ?_
      have hlast := h.getLast?
      rw [← hrest] at hlast
      rcases rest with _ | ⟨c, rest⟩
      · refine absurd ?_ hpart
        rw [← hrest, List.append_nil, utf8_of_decodeUtf8 hdecode]
      · rw [List.getLast?_append_of_ne_nil _ (List.cons_ne_nil _ _)] at hlast
        exact List.mem_of_getLast? hlast
    exact ⟨.framingError, by simp only [hloads], nofun⟩

/-! ## The stream -/

/-- What is stripped from the line of a message, with its end or without. -/
theorem stripBytes_message (h : codec.Encodes m) :
    stripBytes (utf8 (codec.dumps m)) = utf8 (codec.dumps m) ∧
      stripBytes (utf8 (codec.dumps m) ++ [10]) = utf8 (codec.dumps m) := by
  obtain ⟨b, bs, hbytes, -, hlast⟩ := h.bytes
  obtain ⟨init, hinit⟩ := List.getLast?_eq_some_iff.1 hlast
  have hkeep : (0x7B :: b :: bs).rdropWhile isSpaceByte = 0x7B :: b :: bs := by
    rw [hinit, List.rdropWhile_concat_neg _ _ _ (by decide)]
  rw [hbytes]
  refine ⟨?_, ?_⟩
  · rw [stripBytes_cons (by decide), hkeep]
  · rw [List.cons_append, stripBytes_cons (by decide), ← List.cons_append,
      List.rdropWhile_concat_pos _ _ _ (by decide), hkeep]

/-- The first message of a stream whose text is there. -/
theorem readMessages_message (h : codec.Encodes m)
    (hmax : (encodeMessage codec m).length ≤ maxLineBytes) (rest : List (List UInt8)) :
    readMessages codec maxLineBytes (encodeMessage codec m :: rest) =
        (m :: (readMessages codec maxLineBytes rest).1,
          (readMessages codec maxLineBytes rest).2) ∧
      readMessages codec maxLineBytes (utf8 (codec.dumps m) :: rest) =
        (m :: (readMessages codec maxLineBytes rest).1,
          (readMessages codec maxLineBytes rest).2) := by
  have hline : encodeMessage codec m = utf8 (codec.dumps m) ++ [10] := utf8_append _ _
  obtain ⟨hstrip, hstripLine⟩ := stripBytes_message h
  obtain ⟨b, bs, hbytes, -⟩ := h.bytes
  have hne : utf8 (codec.dumps m) ≠ [] := by
    rw [hbytes]
    exact List.cons_ne_nil _ _
  rw [hline, List.length_append, List.length_singleton] at hmax
  rw [hline]
  refine ⟨?_, ?_⟩
  · rw [readMessages, if_neg (by rw [List.length_append, List.length_singleton]; omega),
      hstripLine, if_neg hne, parse_message h]
  · rw [readMessages, if_neg (by omega), hstrip, if_neg hne, parse_message h]

/-- A stream that ends inside a text ends in an exception. -/
theorem readMessages_part (h : codec.Encodes m)
    (hmax : (encodeMessage codec m).length ≤ maxLineBytes) {line : List UInt8}
    (hstart : line <+: utf8 (codec.dumps m)) (hne : line ≠ [])
    (hpart : line ≠ utf8 (codec.dumps m)) :
    ∃ e, readMessages codec maxLineBytes [line] = ([], e) ∧ e ≠ .eof := by
  have hlength : line.length < (encodeMessage codec m).length := by
    have hle := hstart.length_le
    rw [encodeMessage, utf8_append, List.length_append]
    change _ < _ + 1
    omega
  obtain ⟨b, bs, hbytes, -⟩ := h.bytes
  obtain ⟨x, kept, rfl⟩ := List.exists_cons_of_ne_nil hne
  obtain rfl : x = 0x7B := by
    obtain ⟨rest, hrest⟩ := hstart
    rw [hbytes] at hrest
    exact (List.cons.inj hrest).1
  have hstrip := stripBytes_cons (b := 0x7B) (by decide) kept
  have hkept : stripBytes (0x7B :: kept) <+: 0x7B :: kept := by
    rw [hstrip]
    exact List.rdropWhile_prefix _ _
  have hfirst : stripBytes (0x7B :: kept) ≠ [] := by
    rw [hstrip]
    intro hnil
    have hall := List.rdropWhile_eq_nil_iff.1 hnil 0x7B List.mem_cons_self
    cases hall
  obtain ⟨e, he, heof⟩ := parse_part h (hkept.trans hstart) hfirst (by
    intro heq
    refine hpart ?_
    have hle := hkept.length_le
    have hle' := hstart.length_le
    rw [heq] at hle
    exact hstart.eq_of_length (by omega))
  refine ⟨e, ?_, heof⟩
  rw [readMessages, if_neg (by omega), if_neg hfirst, he]

theorem encodeMessage_eq (codec : Codec) (m : Args) :
    encodeMessage codec m = utf8 (codec.dumps m) ++ [10] :=
  utf8_append _ _

/-- Nothing is within no bytes. -/
theorem within_zero {ms : List Args} (h : ∀ m ∈ ms, codec.Encodes m) : within codec ms 0 = [] := by
  rcases ms with _ | ⟨m, ms⟩
  · rfl
  · obtain ⟨b, bs, hbytes, -⟩ := (h m List.mem_cons_self).bytes
    rw [within, hbytes, if_neg (by simp)]

/-- Where a stream ends in relation to its first message. -/
theorem prefix_message_cases {stream rest : List UInt8}
    (h : stream <+: encodeMessage codec m ++ rest) :
    (stream <+: utf8 (codec.dumps m) ∧ stream ≠ utf8 (codec.dumps m)) ∨
      stream = utf8 (codec.dumps m) ∨
      ∃ stream', stream = encodeMessage codec m ++ stream' ∧ stream' <+: rest := by
  rcases List.prefix_or_prefix_of_prefix h (List.prefix_append _ _) with hmessage | ⟨s', rfl⟩
  · rw [encodeMessage_eq] at hmessage ⊢
    rcases List.prefix_concat_iff.1 hmessage with rfl | htext
    · exact Or.inr (Or.inr ⟨[], (List.append_nil _).symm, List.nil_prefix⟩)
    · by_cases heq : stream = utf8 (codec.dumps m)
      · exact Or.inr (Or.inl heq)
      · exact Or.inl ⟨htext, heq⟩
  · exact Or.inr (Or.inr ⟨s', rfl, (List.prefix_append_right_inj _).1 h⟩)

/-- The condition on the rest of the stream. -/
theorem cutAtLine_cons_iff {ms : List Args} {stream : List UInt8} :
    CutAtLine codec (m :: ms) (encodeMessage codec m ++ stream) ↔ CutAtLine codec ms stream := by
  have hne : encodeMessage codec m ≠ [] := by
    rw [encodeMessage_eq]
    simp
  constructor
  · rintro ⟨_ | ⟨m', sent⟩, rest, hms, hcut⟩
    · simp [hne] at hcut
    · obtain ⟨rfl, rfl⟩ := List.cons.inj hms
      refine ⟨sent, rest, rfl, ?_⟩
      rwa [List.flatMap_cons, List.append_cancel_left_eq, List.append_assoc,
        List.append_cancel_left_eq] at hcut
  · rintro ⟨sent, rest, rfl, hcut⟩
    refine ⟨m :: sent, rest, rfl, ?_⟩
    rwa [List.flatMap_cons, List.append_cancel_left_eq, List.append_assoc,
      List.append_cancel_left_eq]

/-- A part of the first text is no cut at a line. -/
theorem not_cutAtLine_of_part {ms : List Args} {stream : List UInt8} (hne : stream ≠ [])
    (hstart : stream <+: utf8 (codec.dumps m)) (hpart : stream ≠ utf8 (codec.dumps m)) :
    ¬CutAtLine codec (m :: ms) stream := by
  have hlength : stream.length < (utf8 (codec.dumps m)).length := by
    refine lt_of_le_of_ne hstart.length_le fun heq => hpart (hstart.eq_of_length heq)
  rintro ⟨_ | ⟨m', sent⟩, rest, hms, hcut⟩
  · simp [hne] at hcut
  · obtain ⟨rfl, -⟩ := List.cons.inj hms
    rw [List.flatMap_cons, encodeMessage_eq] at hcut
    rcases hcut with hcut | hcut
    all_goals
      have heq := congrArg List.length hcut
      simp only [List.length_append, List.length_singleton] at heq
      omega

/-- Of a stream of messages that is cut off anywhere, the messages that came are yielded and the end
is clean exactly if the cut is at the end of a line or right before it. -/
theorem readMessages_eq_iff (codec : Codec) (maxLineBytes : ℕ) (ms : List Args)
    (hencodes : ∀ m ∈ ms, codec.Encodes m)
    (hmax : ∀ m ∈ ms, (encodeMessage codec m).length ≤ maxLineBytes) (stream : List UInt8)
    (hstream : stream <+: ms.flatMap (encodeMessage codec)) :
    readMessages codec maxLineBytes (readLines stream) = (within codec ms stream.length, .eof) ↔
      CutAtLine codec ms stream := by
  induction ms generalizing stream with
  | nil =>
    obtain rfl := List.prefix_nil.1 hstream
    exact iff_of_true rfl ⟨[], [], rfl, Or.inl rfl⟩
  | cons m ms ih =>
    have hm := hencodes m List.mem_cons_self
    have hms : ∀ m ∈ ms, codec.Encodes m := fun m' h => hencodes m' (List.mem_cons_of_mem m h)
    have hlimit := hmax m List.mem_cons_self
    rw [List.flatMap_cons] at hstream
    rcases prefix_message_cases hstream with ⟨hstart, hpart⟩ | rfl | ⟨stream, rfl, hrest⟩
    · by_cases hne : stream = []
      · rw [hne, List.length_nil, within_zero hencodes]
        exact iff_of_true rfl ⟨[], m :: ms, rfl, Or.inl rfl⟩
      · refine iff_of_false (fun heq => ?_) (not_cutAtLine_of_part hne hstart hpart)
        have hnewline : 10 ∉ stream := fun hmem => hm.notMem (hstart.subset hmem)
        obtain ⟨e, he, heof⟩ := readMessages_part hm hlimit hstart hne hpart
        rw [readLines_of_notMem hne hnewline, he] at heq
        exact heof (Prod.ext_iff.1 heq).2
    · refine iff_of_true ?_ ⟨[m], ms, rfl, Or.inr ?_⟩
      · obtain ⟨b, bs, hbytes, -⟩ := hm.bytes
        have hne : utf8 (codec.dumps m) ≠ [] := by
          rw [hbytes]
          exact List.cons_ne_nil _ _
        rw [readLines_of_notMem hne hm.notMem, (readMessages_message hm hlimit []).2, within,
          if_pos (le_refl _), encodeMessage_eq, List.length_append,
          Nat.sub_eq_zero_of_le (Nat.le_add_right _ _), within_zero hms]
        rfl
      · rw [List.flatMap_cons, encodeMessage_eq]
        exact (List.append_nil _).symm
    · have hlines : readLines (encodeMessage codec m ++ stream) =
          encodeMessage codec m :: readLines stream := by
        rw [encodeMessage_eq, List.append_assoc]
        exact readLines_append hm.notMem stream
      have hwithin : within codec (m :: ms) (encodeMessage codec m ++ stream).length =
          m :: within codec ms stream.length := by
        rw [within, List.length_append, Nat.add_sub_cancel_left, if_pos]
        rw [encodeMessage_eq, List.length_append]
        omega
      rw [hlines, (readMessages_message hm hlimit _).1, hwithin, cutAtLine_cons_iff,
        ← ih hms (fun m' h => hmax m' (List.mem_cons_of_mem m h)) stream hrest]
      simp [Prod.ext_iff]

/-- The codec for `{"a":1}`. -/
def oneCodec : Codec where
  float _ := 0
  decodeOther _ := none
  dumps _ := "\x7b\"a\":1\x7d".toList

theorem encodes_one : oneCodec.Encodes [("a", .int 1)] :=
  ⟨rfl, by decide, rfl, rfl⟩

/-- Two messages, the second without the end of its line. -/
theorem readMessages_two :
    readMessages oneCodec 100 (readLines ((encodeMessage oneCodec [("a", .int 1)] ++
        utf8 "\x7b\"a\":1\x7d".toList))) =
      (within oneCodec [[("a", .int 1)], [("a", .int 1)]] 15, .eof) := by
  refine (readMessages_eq_iff oneCodec 100 [[("a", .int 1)], [("a", .int 1)]] ?_ ?_
    (encodeMessage oneCodec [("a", .int 1)] ++ utf8 "\x7b\"a\":1\x7d".toList) ?_).2 ?_
  · simpa using encodes_one
  · simp only [List.mem_cons, List.not_mem_nil, or_false, or_self, forall_eq]
    decide
  · exact ⟨[10], rfl⟩
  · exact ⟨[[("a", .int 1)], [("a", .int 1)]], [], rfl, Or.inr rfl⟩

/-- A stream that is cut off after the first brace ends in an exception. -/
theorem truncated_not_eof :
    utf8 ['\x7b'] <+: [[("a", Json.int 1)]].flatMap (encodeMessage oneCodec) ∧
      readMessages oneCodec 100 (readLines (utf8 ['\x7b'])) = ([], .framingError) := by
  refine ⟨⟨utf8 "\"a\":1\x7d\n".toList, rfl⟩, ?_⟩
  have hparse : oneCodec.parse (utf8 ['\x7b']) = .error .framingError := by
    have hdecode := decodeUtf8_utf8 ['\x7b']
    unfold Codec.parse
    rw [show detectsUtf8 (utf8 ['\x7b']) = true from rfl, if_pos rfl, hdecode]
    rfl
  have hlines : readLines (utf8 ['\x7b']) = [utf8 ['\x7b']] := rfl
  have hstrip : stripBytes (utf8 ['\x7b']) = utf8 ['\x7b'] := rfl
  rw [hlines, readMessages, if_neg (by decide), hstrip, if_neg (by decide), hparse]

end OxenClaw.Acp
