import Ikkat.Shared.Base64
import Ikkat.Shared.TornText
import Ikkat.Log

set_option autoImplicit false

namespace Ikkat

open Json (literal expect encodeString decodeString decodeInt)

-- A nil slice is written as null; the model does not tell it from an empty one.
def encodeContent (content : Bytes) : Bytes :=
  if content = [] then literal "null"
  else Json.quote :: Base64.encode content ++ [Json.quote]

def decodeContent (text : Bytes) : Option (Bytes × Bytes) :=
  match expect (literal "null") text with
  | some rest => some ([], rest)
  | none => do
      let rest ← expect [Json.quote] text
      let content ← Base64.decode (rest.takeWhile (· ≠ Json.quote))
      let rest ← expect [Json.quote] (rest.dropWhile (· ≠ Json.quote))
      some (content, rest)

def marshal (entry : LogEntry) : Bytes :=
  literal "\x7b\"Index\":" ++ (Words.integer entry.index ++
    (literal ",\"Op\":" ++ (encodeString entry.op ++
      (literal ",\"Filename\":" ++ (encodeString entry.filename ++
        (literal ",\"Content\":" ++ (encodeContent entry.content ++
          (literal ",\"Version\":" ++ (Words.integer entry.version.toInt ++ literal "\x7d")))))))))

-- json.Unmarshal on what json.Marshal writes: the fields in this order, without blanks. It differs from
-- encoding/json on other texts, which takes blanks and other orders, and refuses 01 and numbers past 64 bits.
def unmarshal (text : Bytes) : Option LogEntry := do
  let rest ← expect (literal "\x7b\"Index\":") text
  let (index, rest) ← decodeInt rest
  let rest ← expect (literal ",\"Op\":") rest
  let (op, rest) ← decodeString rest
  let rest ← expect (literal ",\"Filename\":") rest
  let (filename, rest) ← decodeString rest
  let rest ← expect (literal ",\"Content\":") rest
  let (content, rest) ← decodeContent rest
  let rest ← expect (literal ",\"Version\":") rest
  let (version, rest) ← decodeInt rest
  if rest = literal "\x7d" ∧ -2 ^ 31 ≤ version ∧ version < 2 ^ 31 then
    some ⟨index, op, filename, content, Int32.ofInt version⟩
  else none

theorem decodeContent_encodeContent (content rest : Bytes) :
    decodeContent (encodeContent content ++ rest) = some (content, rest) := by
  unfold encodeContent
  split_ifs with empty
  · rw [decodeContent, Json.expect_append, empty]
  · have plain : ∀ byte ∈ Base64.encode content, (fun byte => decide (byte ≠ Json.quote)) byte = true := by
      intro byte member
      exact decide_eq_true (Base64.encode_printable content byte member).2
    have notNull : expect (literal "null") (Json.quote :: Base64.encode content ++ [Json.quote] ++ rest) = none :=
      rfl
    rw [decodeContent, notNull]
    have opening := Json.expect_append [Json.quote] (Base64.encode content ++ (Json.quote :: rest))
    have closing := Json.expect_append [Json.quote] rest
    have stop : List.takeWhile (fun byte => decide (byte ≠ Json.quote)) (Json.quote :: rest) = [] ∧
        List.dropWhile (fun byte => decide (byte ≠ Json.quote)) (Json.quote :: rest) = Json.quote :: rest := by
      simp
    simp only [List.cons_append, List.nil_append, List.append_assoc] at opening closing ⊢
    rw [opening]
    simp only [Option.bind_eq_bind, Option.bind_some, List.takeWhile_append_of_pos plain,
      List.dropWhile_append_of_pos plain, stop.1, stop.2, List.append_nil, Base64.decode_encode, closing]

theorem literal_stops (text : String) (first : UInt8) (rest : Bytes)
    (head : (literal text).head? = some first) (notDigit : Words.isDigit first = false) :
    ∀ byte, (literal text ++ rest).head? = some byte → Words.isDigit byte = false := by
  intro byte found
  rw [List.head?_append, head] at found
  cases found
  exact notDigit

theorem literal_printable (text : String) (fine : ((literal text).all fun byte => decide (32 ≤ byte)) = true) :
    ∀ byte ∈ literal text, 32 ≤ byte := by
  intro byte member
  exact of_decide_eq_true (List.all_eq_true.mp fine byte member)

theorem unmarshal_marshal (entry : LogEntry) : unmarshal (marshal entry) = some entry := by
  have version : Int32.ofInt entry.version.toInt = entry.version := Int32.ofInt_toInt entry.version
  have low : -2 ^ 31 ≤ entry.version.toInt := entry.version.le_toInt
  have high : entry.version.toInt < 2 ^ 31 := entry.version.toInt_lt
  have afterIndex := fun rest => Json.decodeInt_integer entry.index
    (literal_stops ",\"Op\":" 44 rest rfl rfl)
  have afterVersion := Json.decodeInt_integer entry.version.toInt
    (literal_stops "\x7d" 125 [] rfl rfl)
  rw [List.append_nil] at afterVersion
  unfold unmarshal marshal
  simp only [Json.expect_append, Option.bind_eq_bind, Option.bind_some, afterIndex,
    Json.decodeString_encodeString, decodeContent_encodeContent, afterVersion, low, high, and_self,
    if_true, version]

theorem marshal_printable (entry : LogEntry) : ∀ byte ∈ marshal entry, 32 ≤ byte := by
  have quoted : 32 ≤ Json.quote := by decide
  have content : ∀ byte ∈ encodeContent entry.content, 32 ≤ byte := by
    unfold encodeContent
    split_ifs
    · exact literal_printable "null" rfl
    · intro byte member
      simp only [List.cons_append, List.mem_cons, List.mem_append, List.not_mem_nil, or_false] at member
      rcases member with rfl | inside | rfl
      · exact quoted
      · exact (Base64.encode_printable _ byte inside).1
      · exact quoted
  intro byte member
  simp only [marshal, List.mem_append] at member
  rcases member with h | h | h | h | h | h | h | h | h | h | h
  · exact literal_printable _ rfl byte h
  · exact Json.integer_printable _ byte h
  · exact literal_printable _ rfl byte h
  · exact Json.encodeString_printable _ byte h
  · exact literal_printable _ rfl byte h
  · exact Json.encodeString_printable _ byte h
  · exact literal_printable _ rfl byte h
  · exact content byte h
  · exact literal_printable _ rfl byte h
  · exact Json.integer_printable _ byte h
  · exact literal_printable _ rfl byte h

theorem marshal_begins (entry : LogEntry) : ∃ more, marshal entry = Json.brace :: Json.quote :: 73 :: more :=
  ⟨_, rfl⟩

theorem marshal_opens (entry : LogEntry) :
    marshal entry = Json.brace :: (literal "\"Index\":" ++ (Words.integer entry.index ++
      (literal ",\"Op\":" ++ (encodeString entry.op ++
        (literal ",\"Filename\":" ++ (encodeString entry.filename ++
          (literal ",\"Content\":" ++ (encodeContent entry.content ++
            (literal ",\"Version\":" ++ (Words.integer entry.version.toInt ++ literal "\x7d")))))))))) := rfl

section Torn

variable {cut second more : Bytes} {α : Type}

theorem decodeContent_cut {content rest : Bytes} {byte : UInt8} (split : encodeContent content = cut ++ byte :: rest) :
    decodeContent (cut ++ Json.brace :: Json.quote :: more) = none := by
  unfold encodeContent at split
  split_ifs at split with empty
  · have different : byte ≠ Json.brace := by
      rintro rfl
      have inside : Json.brace ∈ literal "null" := by simp [split]
      exact absurd inside (by decide)
    have notNull := Json.expect_mismatch cut rest (Json.quote :: more) different
    have notQuote : expect [Json.quote] (cut ++ Json.brace :: Json.quote :: more) = none := by
      cases cut with
      | nil => rfl
      | cons first front =>
        have letter : first = 110 := by
          exact (List.cons.inj split).1.symm
        rw [letter]
        rfl
    rw [← split] at notNull
    rw [decodeContent, notNull, notQuote]
    rfl
  · cases cut with
    | nil => rfl
    | cons first front =>
      simp only [List.cons_append, List.cons.injEq] at split
      obtain ⟨rfl, body⟩ := split
      have before := Json.prefix_before_last body
      have plain : ∀ byte ∈ front, (fun byte => decide (byte ≠ Json.quote)) byte = true := by
        intro byte member
        exact decide_eq_true (Base64.encode_printable content byte (before.subset member)).2
      have foreign : Base64.decode (front ++ [Json.brace]) = none :=
        Base64.decode_foreign _ Json.brace (by simp) (by decide) (by decide)
      have notNull : expect (literal "null") (Json.quote :: front ++ Json.brace :: Json.quote :: more) = none := rfl
      have opening := Json.expect_append [Json.quote] (front ++ Json.brace :: Json.quote :: more)
      have taken : (front ++ Json.brace :: Json.quote :: more).takeWhile (fun byte => decide (byte ≠ Json.quote)) =
          front ++ [Json.brace] := by
        rw [List.takeWhile_append_of_pos plain]
        rfl
      rw [decodeContent, notNull]
      simp only [List.cons_append, List.nil_append] at opening ⊢
      simp only [opening, Option.bind_eq_bind, Option.bind_some, taken, foreign, Option.bind_none]

theorem decodeContent_torn {content : Bytes} {next : Bytes × Bytes → Option α}
    (short : cut <+: encodeContent content ++ second)
    (later : ∀ read rest, rest <+: second → next (read, rest ++ Json.brace :: Json.quote :: more) = none) :
    (decodeContent (cut ++ Json.brace :: Json.quote :: more)).bind next = none := by
  rcases Json.prefix_append_cases short with ⟨byte, rest, split⟩ | ⟨rest, rfl, left⟩
  · rw [decodeContent_cut split, Option.bind_none]
  · rw [List.append_assoc, decodeContent_encodeContent]
    exact later content rest left

theorem unmarshal_torn {entry : LogEntry} (next : LogEntry) (opens : cut <+: marshal entry) (some : cut ≠ []) :
    unmarshal (cut ++ marshal next) = none := by
  obtain ⟨more, text⟩ := marshal_begins next
  rw [text]
  obtain ⟨byte, cut, rfl⟩ := List.exists_cons_of_ne_nil some
  obtain ⟨rfl, short⟩ := List.cons_prefix_cons.mp (marshal_opens entry ▸ opens)
  simp only [unmarshal]
  have opened : expect (literal "\x7b\"Index\":") (Json.brace :: cut ++ Json.brace :: Json.quote :: 73 :: more) =
      expect (literal "\"Index\":") (cut ++ Json.brace :: Json.quote :: 73 :: more) := rfl
  rw [opened]
  refine Json.expect_torn short (by decide) fun cut short => ?_
  refine Json.decodeInt_torn short (literal_stops _ 44 _ rfl rfl) fun index cut short => ?_
  refine Json.expect_torn short (by decide) fun cut short => ?_
  refine Json.decodeString_torn short (fun op => rfl) fun op cut short => ?_
  refine Json.expect_torn short (by decide) fun cut short => ?_
  refine Json.decodeString_torn short (fun filename => rfl) fun filename cut short => ?_
  refine Json.expect_torn short (by decide) fun cut short => ?_
  refine decodeContent_torn short fun content cut short => ?_
  refine Json.expect_torn short (by decide) fun cut short => ?_
  refine Json.decodeInt_torn short (by rintro _ ⟨⟩; rfl) fun version cut short => ?_
  refine if_neg fun ends => ?_
  have one : (literal "\x7d").length = 1 := rfl
  have lengths := congrArg List.length ends.1
  simp only [List.length_append, List.length_cons] at lengths
  omega

end Torn

instance json : LogCodec where
  marshal := marshal
  unmarshal := unmarshal
  unmarshal_marshal := unmarshal_marshal
  marshal_printable := marshal_printable
  marshal_nonempty := fun entry => by simp [marshal, literal]

end Ikkat
