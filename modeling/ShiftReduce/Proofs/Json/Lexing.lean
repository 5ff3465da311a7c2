/-
What is written is cut into its tokens.

A text that lexes into some tokens does so wherever it stands between other
tokens, so a text that is put together from such texts lexes into their
tokens in a row. A quoted text is one token. Its pieces are the bytes of the
text, except that a control character without a letter of its own is written
as a unit; and the pieces can be joined to the bytes of the text again.
-/
import ShiftReduce.Json.Layout
import ShiftReduce.Proofs.Json.Bytes

namespace ShiftReduce.Json

variable {mode next : Mode} {b : UInt8} {bytes : List UInt8}
    {pieces : List Piece}

-- ============================================================== one byte

/-- A byte that does not end a token. -/
theorem lexFrom?_quiet (h : mode.step? b = some ([], next)) :
    lexFrom? mode (b :: bytes) = lexFrom? next bytes := by
  rw [lexFrom?, h]
  simp

-- ========================================================== quoted texts

/-- The pieces in which a character is written. -/
def piecesOf (c : Char) : List Piece :=
  if c.toNat < 32 ∧ c ∉ ['\x08', '\x0c', '\n', '\r', '\t'] then [.unit c.toNat]
  else (String.utf8EncodeChar c).map .byte

/-- The pieces in which a text is written. -/
def written (s : String) : List Piece := s.toList.flatMap piecesOf

/-- Bytes that are no quote, backslash or control character stand for
themselves. -/
theorem lexFrom?_bytes {plain : List UInt8}
    (h : ∀ b ∈ plain, b ≠ ascii '"' ∧ b ≠ ascii '\\' ∧ ¬ b < 32) :
    lexFrom? (.text pieces) (plain ++ bytes)
      = lexFrom? (.text ((plain.map Piece.byte).reverse ++ pieces)) bytes := by
  induction plain generalizing pieces with
  | nil => rfl
  | cons b plain ih =>
      rw [List.forall_mem_cons] at h
      obtain ⟨⟨hquote, hbackslash, hcontrol⟩, hrest⟩ := h
      have hstep : (Mode.text pieces).step? b
          = some ([], .text (.byte b :: pieces)) := by
        simp [Mode.step?, hquote, hbackslash, hcontrol]
      rw [List.cons_append, lexFrom?_quiet hstep, ih hrest]
      simp

/-- A backslash and a letter stand for a byte. -/
theorem lexFrom?_escaped {letter : UInt8} (hu : letter ≠ ascii 'u')
    (h : escaped? letter = some b) :
    lexFrom? (.text pieces) (ascii '\\' :: letter :: bytes)
      = lexFrom? (.text (.byte b :: pieces)) bytes := by
  have hbegin : (Mode.text pieces).step? (ascii '\\')
    = some ([], .escape pieces) := rfl
  have hend : (Mode.escape pieces).step? letter
      = some ([], .text (.byte b :: pieces)) := by
    simp [Mode.step?, hu, h]
  rw [lexFrom?_quiet hbegin, lexFrom?_quiet hend]

theorem hexDigit?_hexDigit {n : Nat} (h : n < 16) :
    (hexDigit n).toNat < 128
      ∧ hexDigit? (hexDigit n).toNat.toUInt8 = some n := by
  have hall : ∀ n : Fin 16, (hexDigit n).toNat < 128
      ∧ hexDigit? (hexDigit n).toNat.toUInt8 = some n.val := by decide
  exact hall ⟨n, h⟩

/-- A control character is written as a unit. -/
theorem lexFrom?_unit {n : Nat} (h : n < 32) :
    lexFrom? (.text pieces)
        ((['\\', 'u', '0', '0', hexDigit (n / 16),
          hexDigit (n % 16)].flatMap String.utf8EncodeChar) ++ bytes)
      = lexFrom? (.text (.unit n :: pieces)) bytes := by
  obtain ⟨hhigh, hhigh'⟩ := hexDigit?_hexDigit (n := n / 16) (by omega)
  obtain ⟨hlow, hlow'⟩ := hexDigit?_hexDigit (n := n % 16) (by omega)
  simp only [List.flatMap_cons, List.flatMap_nil, utf8EncodeChar_of_lt hhigh,
    utf8EncodeChar_of_lt hlow]
  have hbackslash : (Mode.text pieces).step? (ascii '\\')
    = some ([], .escape pieces) := rfl
  have hu : (Mode.escape pieces).step? (ascii 'u')
    = some ([], .unit pieces 4 0) := rfl
  have hzero : (Mode.unit pieces 4 0).step? (ascii '0')
    = some ([], .unit pieces 3 0) := rfl
  have hzero' : (Mode.unit pieces 3 0).step? (ascii '0')
    = some ([], .unit pieces 2 0) := rfl
  have hfirst : (Mode.unit pieces 2 0).step? (hexDigit (n / 16)).toNat.toUInt8
      = some ([], .unit pieces 1 (n / 16)) := by
    simp [Mode.step?, hhigh']
  have hsecond :
      (Mode.unit pieces 1 (n / 16)).step? (hexDigit (n % 16)).toNat.toUInt8
      = some ([], .text (.unit n :: pieces)) := by
    have hvalue : n / 16 * 16 + n % 16 = n := by omega
    simp [Mode.step?, hlow', hvalue]
  show lexFrom? (.text pieces) (ascii '\\' :: ascii 'u'
      :: ascii '0' :: ascii '0'
    :: (hexDigit (n / 16)).toNat.toUInt8 :: (hexDigit (n % 16)).toNat.toUInt8
    :: bytes) = _
  rw [lexFrom?_quiet hbackslash, lexFrom?_quiet hu, lexFrom?_quiet hzero,
    lexFrom?_quiet hzero', lexFrom?_quiet hfirst, lexFrom?_quiet hsecond]

/-- The bytes of any other character stand for themselves. -/
theorem plain_of_mem_utf8EncodeChar {c : Char} (hquote : c ≠ '"')
    (hbackslash : c ≠ '\\') (hcontrol : ¬ c.toNat < 32) {b : UInt8}
    (hb : b ∈ String.utf8EncodeChar c) :
    b ≠ ascii '"' ∧ b ≠ ascii '\\' ∧ ¬ b < 32 := by
  by_cases hascii : c.toNat < 128
  · -- a single byte, which is the code of the character
    rw [utf8EncodeChar_of_lt hascii, List.mem_singleton] at hb
    have hb' : b.toNat = c.toNat := by
      rw [hb]
      exact UInt8.toNat_ofNat_of_lt' (by show c.toNat < 256; omega)
    refine ⟨?_, ?_, ?_⟩
    · rintro rfl
      exact hquote (Char.toNat_inj.mp hb'.symm)
    · rintro rfl
      exact hbackslash (Char.toNat_inj.mp hb'.symm)
    · rw [UInt8.lt_iff_toNat_lt, hb']
      exact hcontrol
  · have hlarge := le_of_mem_utf8EncodeChar hascii hb
    refine ⟨?_, ?_, ?_⟩
    · rintro rfl
      exact absurd hlarge (by decide)
    · rintro rfl
      exact absurd hlarge (by decide)
    · rw [UInt8.lt_iff_toNat_lt]
      show ¬ b.toNat < 32
      omega

/-- A character in a quoted text is read as its pieces. -/
theorem lexFrom?_escape (c : Char) :
    lexFrom? (.text pieces) ((escape c).flatMap String.utf8EncodeChar ++ bytes)
      = lexFrom? (.text ((piecesOf c).reverse ++ pieces)) bytes := by
  by_cases hquote : c = '"'
  · subst hquote
    exact lexFrom?_escaped (by decide) rfl
  by_cases hbackslash : c = '\\'
  · subst hbackslash
    exact lexFrom?_escaped (by decide) rfl
  by_cases hshort : c ∈ ['\x08', '\x0c', '\n', '\r', '\t']
  · simp only [List.mem_cons, List.not_mem_nil, or_false] at hshort
    rcases hshort with rfl | rfl | rfl | rfl | rfl <;>
      exact lexFrom?_escaped (by decide) rfl
  have hletters := hshort
  simp only [List.mem_cons, List.not_mem_nil, or_false, not_or] at hletters
  obtain ⟨h1, h2, h3, h4, h5⟩ := hletters
  by_cases hcontrol : c.toNat < 32
  · have hescape : escape c
        = ['\\', 'u', '0', '0', hexDigit (c.toNat / 16),
          hexDigit (c.toNat % 16)] := by
      simp [escape, *]
    have hpieces : piecesOf c = [.unit c.toNat] := if_pos ⟨hcontrol, hshort⟩
    rw [hescape, hpieces, lexFrom?_unit hcontrol]
    rfl
  · have hescape : escape c = [c] := by
      simp [escape, *]
    have hpieces : piecesOf c = (String.utf8EncodeChar c).map .byte :=
      if_neg fun h => hcontrol h.1
    rw [hescape, hpieces, List.flatMap_singleton]
    apply lexFrom?_bytes
    exact fun b hb => plain_of_mem_utf8EncodeChar hquote hbackslash hcontrol hb

theorem lexFrom?_escapes (cs : List Char) :
    lexFrom? (.text pieces)
      ((cs.flatMap escape).flatMap String.utf8EncodeChar ++ bytes)
      = lexFrom? (.text ((cs.flatMap piecesOf).reverse ++ pieces)) bytes := by
  induction cs generalizing pieces with
  | nil => rfl
  | cons c cs ih =>
      rw [List.flatMap_cons, List.flatMap_append, List.append_assoc,
        lexFrom?_escape, ih, List.flatMap_cons, List.reverse_append,
        List.append_assoc]

-- ============================================================ decoding

/-- The bytes of a character are joined from its pieces. -/
theorem joinPieces?_piecesOf (c : Char) (rest : List Piece) :
    joinPieces? (piecesOf c ++ rest)
      = (joinPieces? rest).map (String.utf8EncodeChar c ++ ·) := by
  unfold piecesOf
  split
  · next h =>
      have hencode : encodeCode c.toNat = String.utf8EncodeChar c := by
        unfold encodeCode
        rw [bytesOf_eq, Char.ofNat_toNat]
        simp
      have hhigh : isHighUnit c.toNat = false := by
        simp [isHighUnit]
        omega
      have hlow : isLowUnit c.toNat = false := by
        simp [isLowUnit]
        omega
      rw [← hencode]
      match rest with
      | [] => simp [joinPieces?, hhigh, hlow]
      | .byte b :: rest => simp [joinPieces?, hhigh, hlow]
      | .unit u :: rest => simp [joinPieces?, hhigh, hlow]
  · generalize String.utf8EncodeChar c = bytes
    induction bytes with
    | nil => simp
    | cons b bytes ih =>
        rw [List.map_cons, List.cons_append, joinPieces?, ih]
        cases joinPieces? rest <;> rfl

/-- A quoted text is decoded to what it was before. -/
theorem decodePieces?_written (s : String) :
    decodePieces? (written s) = some s := by
  have hjoin : ∀ cs : List Char,
      joinPieces? (cs.flatMap piecesOf)
          = some (cs.flatMap String.utf8EncodeChar) := by
    intro cs
    induction cs with
    | nil => rfl
    | cons c cs ih =>
        rw [List.flatMap_cons, joinPieces?_piecesOf, ih]
        rfl
  unfold decodePieces? written
  rw [hjoin, ← bytesOf_eq]
  exact fromUTF8?_bytesOf s

-- ================================================================ lexing

/-- A text is cut into some tokens, wherever it stands between tokens. -/
def Lexes (text : String) (tokens : List Token) : Prop :=
  ∀ rest, lexFrom? .between (bytesOf text ++ rest)
    = (lexFrom? .between rest).map (tokens ++ ·)

theorem Lexes.append {s t : String} {u v : List Token} (hs : Lexes s u)
    (ht : Lexes t v) : Lexes (s ++ t) (u ++ v) := by
  intro rest
  rw [bytesOf_append, List.append_assoc, hs, ht, Option.map_map]
  congr 1
  funext tokens
  simp

/-- A text of a single character that begins nothing longer. -/
theorem lexes_singleton {c : Char} {tokens : List Token} (hc : c.toNat < 128)
    (h : begin? (ascii c) = some (tokens, .between)) :
    Lexes (String.ofList [c]) tokens := by
  intro rest
  have hstep : Mode.between.step? (ascii c) = some (tokens, .between) := h
  rw [bytesOf_singleton hc, List.singleton_append, lexFrom?, hstep]

theorem lexes_newline : Lexes "\n" [] :=
  lexes_singleton (c := '\n') (by decide) rfl

theorem lexes_comma : Lexes ",\n" [.comma] :=
  (lexes_singleton (c := ',') (by decide) rfl).append lexes_newline

theorem lexes_colon : Lexes ": " [.colon] :=
  (lexes_singleton (c := ':') (by decide) rfl).append
    (lexes_singleton (c := ' ') (by decide) rfl)

theorem lexes_indent (depth : Nat) : Lexes (indent depth) [] := by
  unfold indent
  induction 2 * depth with
  | zero =>
      intro rest
      rw [List.replicate_zero, bytesOf_ofList]
      simp
  | succ n ih =>
      have hspace : String.ofList (List.replicate (n + 1) ' ')
          = String.ofList [' '] ++ String.ofList (List.replicate n ' ') := by
        rw [← String.ofList_append]
        rfl
      rw [hspace]
      exact (lexes_singleton (c := ' ') (by decide) rfl).append ih

/-- A quoted text is one token. -/
theorem lexes_quote (s : String) : Lexes (quote s) [.text (written s)] := by
  intro rest
  have hquote : bytesOf "\"" = [ascii '"'] := bytesOf_singleton (by decide)
  have hbytes : bytesOf (quote s)
      = ascii '"' :: ((s.toList.flatMap escape).flatMap String.utf8EncodeChar
        ++ [ascii '"']) := by
    unfold quote
    rw [bytesOf_append, bytesOf_append, hquote, bytesOf_ofList]
    rfl
  have hbegin : Mode.between.step? (ascii '"') = some ([], .text []) := rfl
  have hend : ∀ pieces, (Mode.text pieces).step? (ascii '"')
      = some ([.text pieces.reverse], .between) := fun _ => rfl
  rw [hbytes, List.cons_append, List.append_assoc, lexFrom?_quiet hbegin,
    lexFrom?_escapes, List.append_nil, List.singleton_append, lexFrom?, hend]
  dsimp only
  rw [List.reverse_reverse]
  rfl

end ShiftReduce.Json
