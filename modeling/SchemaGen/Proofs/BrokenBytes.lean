import SchemaGen.Catalog
import SchemaGen.Proofs.TokenPlaces

/-!
# Bytes that are no text

A schema file need not be a text. Reading its bytes then stops behind the longest text that they
start with, and the fault stands at the position behind that text. It can be counted in the
characters of the text or in its bytes, and it is where the text would end if it were a file of its
own.

Results:
1. `charsFrom_spec`, `isPrefix_of_undecodable`: reading stops behind the longest text.
2. `counted_eq_inBytes`: positions counted in characters are those counted in bytes.
3. `Spread.getLast?`: the last token stands behind the text.
4. `notText_position`: where the fault stands.
-/

namespace SchemaGen

/-! ## Definitions -/

/-- `v` is the longest text that `bytes` start with, and no character starts behind it. -/
structure Text.IsLongestStart (v : String) (bytes : ByteArray) : Prop where
  start : ∃ rest, bytes = v.toByteArray ++ rest
  longest : ∀ w rest, bytes = String.toByteArray w ++ rest → w.toList <+: v.toList
  stop : bytes.utf8DecodeChar? v.toByteArray.size = none

namespace Text

/-! ## 1. Where reading stops -/

theorem extract_of_decodes {bytes : ByteArray} {i : Nat} {c : Char}
    (h : bytes.utf8DecodeChar? i = some c) :
    bytes.extract i bytes.size = [c].utf8Encode ++ bytes.extract (i + c.utf8Size) bytes.size := by
  have hle := ByteArray.le_size_of_utf8DecodeChar?_eq_some h
  have hend : min (i + (bytes.extract i bytes.size).size) bytes.size = bytes.size := by
    rw [ByteArray.size_extract]
    omega
  rw [ByteArray.utf8DecodeChar?_eq_utf8DecodeChar?_extract] at h
  have hsplit := ByteArray.eq_of_utf8DecodeChar?_eq_some h
  rwa [← List.utf8Encode_singleton, ByteArray.extract_extract, hend] at hsplit

theorem charsFrom_spec (bytes : ByteArray) (i : Nat) (hi : i ≤ bytes.size) :
    ∃ rest, bytes.extract i bytes.size = (charsFrom bytes i).1.utf8Encode ++ rest ∧
      rest.utf8DecodeChar? 0 = none ∧
      (charsFrom bytes i).2 + rest.size = bytes.size := by
  fun_induction charsFrom bytes i with
  | case1 i hlt c hc cs stop heq ih =>
    obtain ⟨rest, hextract, hnone, hstop⟩ := ih (ByteArray.le_size_of_utf8DecodeChar?_eq_some hc)
    rw [heq] at hextract hstop
    refine ⟨rest, ?_, hnone, hstop⟩
    rw [extract_of_decodes hc, hextract, ← ByteArray.append_assoc, ← List.utf8Encode_append]
    rfl
  | case2 i hlt hnone =>
    refine ⟨bytes.extract i bytes.size, by simp, ?_, ?_⟩
    · rwa [← ByteArray.utf8DecodeChar?_eq_utf8DecodeChar?_extract]
    · rw [ByteArray.size_extract]
      omega
  | case3 i hge =>
    refine ⟨ByteArray.empty, ?_, rfl, ?_⟩
    · simp; omega
    · rw [ByteArray.size_empty]
      omega

/-- Nothing that is written behind a text goes on with a character of another one. -/
theorem isPrefix_of_undecodable {w cs : List Char} {rest rest' : ByteArray}
    (h : w.utf8Encode ++ rest' = cs.utf8Encode ++ rest) (hrest : rest.utf8DecodeChar? 0 = none) :
    w <+: cs := by
  induction w generalizing cs with
  | nil => exact List.nil_prefix
  | cons c w ih =>
    have hc : (cs.utf8Encode ++ rest).utf8DecodeChar? 0 = some c := by
      rw [← h, List.utf8Encode_cons, ByteArray.append_assoc]
      exact List.utf8DecodeChar?_utf8Encode_singleton_append
    cases cs with
    | nil =>
      rw [List.utf8Encode_nil, ByteArray.empty_append, hrest] at hc
      cases hc
    | cons d cs =>
      rw [List.utf8Encode_cons, ByteArray.append_assoc,
        List.utf8DecodeChar?_utf8Encode_singleton_append] at hc
      cases hc
      rw [List.utf8Encode_cons, @List.utf8Encode_cons c cs, ByteArray.append_assoc,
        ByteArray.append_assoc, ByteArray.append_right_inj] at h
      exact (List.prefix_cons_inj c).2 (ih h)

namespace IsLongestStart

variable {v w : String} {bytes rest : ByteArray}

theorem of_undecodable (v : String) (hrest : rest.utf8DecodeChar? 0 = none) :
    IsLongestStart v (v.toByteArray ++ rest) where
  start := ⟨rest, rfl⟩
  longest w rest' hw := by
    rw [← String.utf8Encode_toList, ← String.utf8Encode_toList] at hw
    exact isPrefix_of_undecodable hw.symm hrest
  stop := by
    rw [ByteArray.utf8DecodeChar?_eq_utf8DecodeChar?_extract,
      ByteArray.extract_append_eq_right rfl ByteArray.size_append]
    exact hrest

theorem eq (hv : IsLongestStart v bytes) (hw : IsLongestStart w bytes) : v = w := by
  obtain ⟨restv, hrestv⟩ := hv.start
  obtain ⟨restw, hrestw⟩ := hw.start
  have hle := hw.longest v restv hrestv
  exact String.toList_inj.1 (hle.eq_of_length_le (hv.longest w restw hrestw).length_le)

/-- Bytes that go on behind the longest text are no text. -/
theorem not_isValidUTF8 (h : IsLongestStart v (v.toByteArray ++ rest))
    (hrest : rest ≠ ByteArray.empty) : ¬ (v.toByteArray ++ rest).IsValidUTF8 := by
  rintro ⟨cs, hcs⟩
  have hle := h.longest (String.ofList cs) ByteArray.empty (by simp [hcs])
  rw [String.toList_ofList] at hle
  obtain ⟨more, hmore⟩ := hle
  have hsize := congrArg ByteArray.size hcs
  rw [← String.utf8Encode_toList, ← hmore] at hsize
  simp only [List.utf8Encode_append, ByteArray.size_append] at hsize
  exact hrest (ByteArray.size_eq_zero_iff.1 (by omega))

end IsLongestStart

/-- What is read of bytes that are no text. -/
theorem error_of_ofBytes {bytes : ByteArray} (h : ¬ bytes.IsValidUTF8) :
    ∃ v : String, ofBytes bytes = .error v.toByteArray.size ∧ IsLongestStart v bytes := by
  obtain ⟨rest, hextract, hnone, hstop⟩ := charsFrom_spec bytes 0 (Nat.zero_le _)
  rw [ByteArray.extract_zero_size] at hextract
  generalize hread : charsFrom bytes 0 = read at hextract hstop
  have hrest : rest.size ≠ 0 := by
    intro hempty
    obtain rfl := ByteArray.size_eq_zero_iff.1 hempty
    exact h ⟨read.1, by rw [hextract, ByteArray.append_empty]⟩
  have hsize := congrArg ByteArray.size hextract
  rw [ByteArray.size_append] at hsize
  refine ⟨String.ofList read.1, ?_, ?_⟩
  · have htaken : read.2 = read.1.utf8Encode.size := by omega
    rw [ofBytes, hread, String.toByteArray_ofList, ← htaken]
    exact if_neg (by omega)
  · rw [hextract, ← String.toByteArray_ofList]
    exact .of_undecodable _ hnone

/-! ## 2. Positions in bytes -/

/-- The byte of a newline occurs in no other character. -/
theorem newline_mem_iff {c : Char} : (0x0A : UInt8) ∈ String.utf8EncodeChar c ↔ c = '\n' := by
  constructor
  · intro h
    obtain ⟨i, hi, hbyte⟩ := List.getElem_of_mem h
    have hfirst : (String.utf8EncodeChar c)[i].IsUTF8FirstByte := by
      rw [hbyte]
      decide
    obtain rfl := UInt8.isUTF8FirstByte_getElem_utf8EncodeChar.1 hfirst
    -- A newline can then be read at the front of the character.
    obtain ⟨first, more, hcons⟩ := List.exists_cons_of_ne_nil (@String.utf8EncodeChar_ne_nil c)
    have hnewline : [c].utf8Encode = ['\n'].utf8Encode ++ more.toByteArray := by
      simp only [hcons, List.getElem_cons_zero] at hbyte
      rw [List.utf8Encode_singleton, List.utf8Encode_singleton, hcons, hbyte,
        ← List.toByteArray_append]
      rfl
    have hread := congrArg (ByteArray.utf8DecodeChar? · 0) hnewline
    simp only [List.utf8DecodeChar?_utf8Encode_singleton,
      List.utf8DecodeChar?_utf8Encode_singleton_append] at hread
    exact Option.some.inj hread
  · rintro rfl
    decide

theorem count_newline (cs : List Char) :
    (cs.flatMap String.utf8EncodeChar).count 0x0A = cs.count '\n' := by
  induction cs with
  | nil => rfl
  | cons c cs ih =>
    rw [List.flatMap_cons, List.count_append, ih, List.count_cons, Nat.add_comm]
    by_cases hc : c = '\n'
    · subst hc
      rfl
    · rw [List.count_eq_zero.2 (mt newline_mem_iff.1 hc), if_neg (by simpa using hc)]

/-- The bytes behind the last newline are those of the characters behind it. -/
theorem takeWhile_bytes (cs : List Char) :
    ((cs.flatMap String.utf8EncodeChar).reverse.takeWhile (· ≠ 0x0A)).reverse =
      (cs.reverse.takeWhile (· ≠ '\n')).reverse.flatMap String.utf8EncodeChar := by
  have hback (rs : List Char) :
      (rs.flatMap fun c => (String.utf8EncodeChar c).reverse).takeWhile (· ≠ 0x0A) =
        (rs.takeWhile (· ≠ '\n')).flatMap fun c => (String.utf8EncodeChar c).reverse := by
    induction rs with
    | nil => rfl
    | cons c rs ih =>
      rw [List.flatMap_cons]
      by_cases hc : c = '\n'
      · subst hc
        rfl
      · have hbytes : ∀ b ∈ (String.utf8EncodeChar c).reverse, decide (b ≠ 0x0A) = true := by
          intro b hb
          rw [decide_eq_true_iff]
          rintro rfl
          exact hc (newline_mem_iff.1 (List.mem_reverse.1 hb))
        rw [List.takeWhile_append_of_pos hbytes, ih, List.takeWhile_cons_of_pos (by simpa using hc),
          List.flatMap_cons]
  rw [List.reverse_flatMap, Function.comp_def, hback, List.reverse_flatMap]
  simp [Function.comp_def]

theorem shownFrom_of_text {bytes : ByteArray} {cs : List Char} {i : Nat}
    (h : bytes.extract i bytes.size = cs.utf8Encode) : shownFrom bytes i = cs := by
  induction cs generalizing i with
  | nil =>
    have hsize := congrArg ByteArray.size h
    rw [ByteArray.size_extract, List.utf8Encode_nil, ByteArray.size_empty] at hsize
    rw [shownFrom, if_neg (by omega)]
  | cons c cs ih =>
    have hc : bytes.utf8DecodeChar? i = some c := by
      rw [ByteArray.utf8DecodeChar?_eq_utf8DecodeChar?_extract, h]
      exact List.utf8DecodeChar?_utf8Encode_cons
    have hlt := ByteArray.lt_size_of_isSome_utf8DecodeChar? (Option.isSome_of_eq_some hc)
    rw [extract_of_decodes hc, @List.utf8Encode_cons c cs, ByteArray.append_right_inj] at h
    rw [shownFrom, if_pos hlt, hc]
    exact congrArg (c :: ·) (ih h)

/-- Positions that are counted in characters are those that are counted in bytes. -/
theorem Position.counted_eq_inBytes (v : String) :
    Position.counted v.toList = .inBytes v.toByteArray.data.toList := by
  have hbytes : v.toByteArray.data.toList = v.toList.flatMap String.utf8EncodeChar := by
    rw [← String.utf8Encode_toList]
    simp [List.utf8Encode]
  have hshown : shown ((v.toList.reverse.takeWhile (· ≠ '\n')).reverse.flatMap
      String.utf8EncodeChar).toByteArray =
        String.ofList (v.toList.reverse.takeWhile (· ≠ '\n')).reverse := by
    refine congrArg String.ofList (shownFrom_of_text ?_)
    rw [ByteArray.extract_zero_size]
    rfl
  rw [counted, inBytes, hbytes, count_newline, takeWhile_bytes, hshown, String.length_ofList,
    List.length_reverse]

end Text

/-! ## 3. The last token -/

theorem Token.Spread.getLast? {before cs : List Char} {ts : List Token} (h : Spread before ts cs) :
    ts.getLast? = some ⟨.endOfFile, "", .counted (before ++ cs)⟩ := by
  induction h with
  | @last _ _ mark _ hkind htext hposition =>
    obtain ⟨kind, text, position⟩ := mark
    subst hkind htext hposition
    rfl
  | @cons before blanks rest t ts _ _ _ _ ih =>
    rw [List.getLast?_cons, ih]
    simp

/-! ## 4. Faults -/

/-- Bytes that are no text are a fault of their file. It stands behind the longest text that they
start with, at the position that is counted in the characters of this text as well as in its bytes,
and if this text can be cut into tokens, the end of the file is at the same position. -/
theorem notText_position (file : String) (bytes : ByteArray) (h : ¬ bytes.IsValidUTF8) :
    ∃ v : String, Text.IsLongestStart v bytes ∧
      Catalog.document file bytes = .error (.notText file (.counted v.toList)) ∧
      Text.Position.counted v.toList = .inBytes v.toByteArray.data.toList ∧
      ∀ ts, Token.tokenize v = .ok ts →
        ts.getLast? = some ⟨.endOfFile, "", .counted v.toList⟩ := by
  obtain ⟨v, hread, hstart⟩ := Text.error_of_ofBytes h
  refine ⟨v, hstart, ?_, Text.Position.counted_eq_inBytes v, fun ts hts => ?_⟩
  · obtain ⟨rest, rfl⟩ := hstart.start
    have htaken : (v.toByteArray ++ rest).data.toList.take v.toByteArray.size =
        v.toByteArray.data.toList := by
      rw [ByteArray.data_append, Array.toList_append]
      exact List.take_left
    rw [Catalog.document, hread, Text.Position.counted_eq_inBytes]
    simp only [htaken]
  · obtain ⟨lexemes, rest, -, -, hexplains⟩ := Token.scan_explained [] v.toList
    have hts' : Token.scan (.counted []) v.toList = .ok ts := hts
    rw [hts'] at hexplains
    exact hexplains.2.1.getLast?

/-- Two comments, with characters of two bytes, on two lines. -/
def brokenStart : String :=
  "// \u00E9\n/* \u00FC */ "

/-- The comments, and the first byte of one more character. -/
def brokenBytes : ByteArray :=
  brokenStart.toByteArray ++ [0xC3].toByteArray

/-- The second line has eight characters, which are nine bytes. -/
theorem notText_position_broken :
    ¬ brokenBytes.IsValidUTF8 ∧ Text.IsLongestStart brokenStart brokenBytes ∧
      Catalog.document "a" brokenBytes = .error (.notText "a" ⟨2, 9⟩) ∧
      ∃ ts, Token.tokenize brokenStart = .ok ts ∧
        ts.getLast? = some ⟨.endOfFile, "", ⟨2, 9⟩⟩ := by
  have hstart : Text.IsLongestStart brokenStart brokenBytes := .of_undecodable _ (by decide)
  have hbroken : ¬ brokenBytes.IsValidUTF8 := hstart.not_isValidUTF8 (by decide)
  obtain ⟨v, hv, hdocument, -, hlast⟩ := notText_position "a" brokenBytes hbroken
  obtain rfl := hv.eq hstart
  have hposition : Text.Position.counted brokenStart.toList = ⟨2, 9⟩ := by decide
  rw [hposition] at hdocument hlast
  have htokens : (Token.tokenize brokenStart).isOk = true := by decide +kernel
  cases hts : Token.tokenize brokenStart with
  | ok ts => exact ⟨hbroken, hstart, hdocument, ts, rfl, hlast ts hts⟩
  | error e =>
    rw [hts] at htokens
    cases htokens

end SchemaGen
