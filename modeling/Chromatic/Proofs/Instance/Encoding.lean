import Chromatic.Instance
import Chromatic.Proofs.Text.Pieces
/-!
# Instances as bytes

Decoding undoes encoding, and no other bytes are a text. A line feed of the bytes is one of the
text, so the lines of an encoded text are its encoded lines.
-/

namespace Chromatic.Instance

variable {bytes : List UInt8} {text : List Char} {c : Char}

/-- The text in UTF-8. -/
def encode (text : List Char) : List UInt8 := text.flatMap String.utf8EncodeChar

private theorem encode_cons (c : Char) (l : List Char) :
    encode (c :: l) = String.utf8EncodeChar c ++ encode l := rfl

private theorem encode_eq_nil_iff : encode text = [] ↔ text = [] := by
  cases text with
  | nil => simp [encode]
  | cons c rest => simp [encode_cons, String.utf8EncodeChar_ne_nil]

/-- Bytes are a text exactly if they are the encoding of one. -/
theorem decode_eq_some_iff : decode bytes = some text ↔ bytes = encode text := by
  have hbytes : (⟨bytes.toArray⟩ : ByteArray) = bytes.toByteArray := by
    apply ByteArray.ext
    rw [List.data_toByteArray]
  rw [decode, hbytes]
  constructor
  · intro h
    obtain ⟨cs, hcs, rfl⟩ := Option.map_eq_some_iff.mp h
    have hsome : bytes.toByteArray.utf8Decode?.isSome := by rw [hcs]; rfl
    have hencode := ByteArray.utf8Encode_get_utf8Decode? (h := hsome)
    simp only [hcs, Option.get_some] at hencode
    exact (List.toByteArray_inj.mp hencode).symm
  · rintro rfl
    show (List.utf8Encode text).utf8Decode?.map Array.toList = some text
    rw [List.utf8Decode?_utf8Encode]
    rfl

private theorem decode_encode (text : List Char) : decode (encode text) = some text :=
  decode_eq_some_iff.mpr rfl

theorem readLine_encode (n : Nat) (text : List Char) :
    readLine n (encode text) = statement n text := by
  rw [readLine, decode_encode]

theorem encode_injective {l m : List Char} (h : encode l = encode m) : l = m := by
  have hdecode := congrArg decode h
  rw [decode_encode, decode_encode] at hdecode
  exact Option.some.inj hdecode

private theorem encodeChar_lineFeed : String.utf8EncodeChar '\n' = [lineFeed] := by decide

private theorem lineFeed_ne_ofNat {n : Nat} (h : n < 256) (hn : n ≠ 10) :
    lineFeed ≠ UInt8.ofNat n := by
  intro heq
  have htoNat := congrArg UInt8.toNat heq
  rw [UInt8.toNat_ofNat', Nat.mod_eq_of_lt h] at htoNat
  exact hn htoNat.symm

private theorem lineFeed_not_mem_encodeChar (h : c ≠ '\n') :
    lineFeed ∉ String.utf8EncodeChar c := by
  have hval : c.val.toNat ≠ 10 := by
    intro hc
    apply h
    apply Char.ext
    apply UInt32.toNat_inj.mp
    exact hc
  unfold String.utf8EncodeChar
  dsimp only
  -- The bytes of a character of several bytes have their high bit set.
  split
  · rw [List.mem_singleton]
    exact lineFeed_ne_ofNat (by omega) hval
  · split
    · simp only [List.mem_cons, List.not_mem_nil, or_false, not_or]
      exact ⟨lineFeed_ne_ofNat (by omega) (by omega), lineFeed_ne_ofNat (by omega) (by omega)⟩
    · split
      · simp only [List.mem_cons, List.not_mem_nil, or_false, not_or]
        exact ⟨lineFeed_ne_ofNat (by omega) (by omega), lineFeed_ne_ofNat (by omega) (by omega),
          lineFeed_ne_ofNat (by omega) (by omega)⟩
      · simp only [List.mem_cons, List.not_mem_nil, or_false, not_or]
        exact ⟨lineFeed_ne_ofNat (by omega) (by omega), lineFeed_ne_ofNat (by omega) (by omega),
          lineFeed_ne_ofNat (by omega) (by omega), lineFeed_ne_ofNat (by omega) (by omega)⟩

private theorem pieces_encode (text : List Char) :
    Text.pieces lineFeed (encode text) = (Text.pieces '\n' text).map encode := by
  induction text with
  | nil => rfl
  | cons c rest ih =>
    rw [encode_cons, Text.pieces_cons]
    split
    · next h =>
      rw [h, encodeChar_lineFeed, List.singleton_append, Text.pieces_cons, if_pos rfl, ih]
      rfl
    · next h =>
      rw [Text.pieces_append_left (lineFeed_not_mem_encodeChar h), ih,
        Text.lengthenFirst_eq_modifyHead (Text.pieces_ne_nil _ _)]
      cases Text.pieces '\n' rest <;> rfl

theorem linesOf_encode (text : List Char) :
    Text.linesOf lineFeed (encode text) = (Text.linesOf '\n' text).map encode := by
  obtain ⟨init, last, h, -⟩ := Text.pieces_append_right (List.not_mem_nil (a := '\n')) text
  simp only [Text.linesOf, pieces_encode, h, List.map_append, List.map_cons, List.map_nil,
    List.getLast?_concat, List.dropLast_concat, Option.some.injEq, encode_eq_nil_iff]
  split <;> simp

end Chromatic.Instance
