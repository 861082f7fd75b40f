/-!
# UTF-8

Which byte sequences are texts, told by their bytes alone: one to four bytes make a
character, the first one says how many, and a character is never written with more
bytes than it needs.  The numbers of half surrogate pairs and those above the last
character have no bytes at all.  These are exactly the byte sequences that texts
have (`wellFormed_iff`).
-/

namespace MicroLisp.Utf8

/-- The bytes behind the first one of a character. -/
def IsTail (b : UInt8) : Prop := 0x80 ≤ b.toNat ∧ b.toNat ≤ 0xbf

/-- The bytes of one character.  A first byte that would also do for smaller numbers asks for a
greater second one, and the last of them for a smaller one. -/
inductive Form : List UInt8 → Prop
  | one {a : UInt8} : a.toNat ≤ 0x7f → Form [a]
  | two {a b : UInt8} : 0xc2 ≤ a.toNat → a.toNat ≤ 0xdf → IsTail b → Form [a, b]
  | three {a b c : UInt8} : 0xe0 ≤ a.toNat → a.toNat ≤ 0xef → IsTail b → IsTail c →
      (a.toNat = 0xe0 → 0xa0 ≤ b.toNat) → (a.toNat = 0xed → b.toNat ≤ 0x9f) → Form [a, b, c]
  | four {a b c d : UInt8} : 0xf0 ≤ a.toNat → a.toNat ≤ 0xf4 → IsTail b → IsTail c → IsTail d →
      (a.toNat = 0xf0 → 0x90 ≤ b.toNat) → (a.toNat = 0xf4 → b.toNat ≤ 0x8f) → Form [a, b, c, d]

/-- Bytes that are the bytes of characters, one behind the other. -/
inductive Forms : List UInt8 → Prop
  | nil : Forms []
  | append {c s : List UInt8} : Form c → Forms s → Forms (c ++ s)

def WellFormed (data : ByteArray) : Prop := Forms data.data.toList

/-! ### One character -/

theorem form_utf8EncodeChar (c : Char) : Form (String.utf8EncodeChar c) := by
  have hvalid : c.toNat < 0xd800 ∨ 0xdfff < c.toNat ∧ c.toNat < 0x110000 := c.valid
  have hv : c.val.toNat = c.toNat := rfl
  simp only [String.utf8EncodeChar, hv]
  split
  · exact .one (by rw [UInt8.toNat_ofNat']; omega)
  · split
    · refine .two ?_ ?_ ⟨?_, ?_⟩
      all_goals
        rw [UInt8.toNat_ofNat']
        omega
    · split
      · refine .three ?_ ?_ ⟨?_, ?_⟩ ⟨?_, ?_⟩ ?_ ?_
        all_goals
          simp only [UInt8.toNat_ofNat']
          omega
      · refine .four ?_ ?_ ⟨?_, ?_⟩ ⟨?_, ?_⟩ ⟨?_, ?_⟩ ?_ ?_
        all_goals
          simp only [UInt8.toNat_ofNat']
          omega

theorem exists_char {n : Nat} (h : n < 0xd800 ∨ 0xdfff < n ∧ n < 0x110000) :
    ∃ c : Char, c.val.toNat = n := ⟨Char.ofNatAux n h, rfl⟩

theorem Form.exists_char {bytes : List UInt8} (h : Form bytes) :
    ∃ c : Char, String.utf8EncodeChar c = bytes := by
  cases h with
  | @one a ha =>
    obtain ⟨c, hc⟩ := Utf8.exists_char (n := a.toNat) (by omega)
    refine ⟨c, ?_⟩
    rw [String.utf8EncodeChar, hc, if_pos (by omega), UInt8.ofNat_toNat]
  | @two a b ha ha' hb =>
    obtain ⟨hb, hb'⟩ := hb
    obtain ⟨c, hc⟩ := Utf8.exists_char (n := (a.toNat - 0xc0) * 64 + (b.toNat - 0x80)) (by omega)
    refine ⟨c, ?_⟩
    simp only [String.utf8EncodeChar, hc]
    rw [if_neg (by omega), if_pos (by omega)]
    simp only [List.cons.injEq, ← UInt8.toNat_inj, UInt8.toNat_ofNat', and_true]
    omega
  | @three a b c ha ha' hb hc hlow hhigh =>
    obtain ⟨⟨hb, hb'⟩, hc, hc'⟩ := And.intro hb hc
    obtain ⟨x, hx⟩ := Utf8.exists_char
      (n := (a.toNat - 0xe0) * 4096 + (b.toNat - 0x80) * 64 + (c.toNat - 0x80)) (by omega)
    refine ⟨x, ?_⟩
    simp only [String.utf8EncodeChar, hx]
    rw [if_neg (by omega), if_neg (by omega), if_pos (by omega)]
    simp only [List.cons.injEq, ← UInt8.toNat_inj, UInt8.toNat_ofNat', and_true]
    omega
  | @four a b c d ha ha' hb hc hd hlow hhigh =>
    obtain ⟨⟨hb, hb'⟩, ⟨hc, hc'⟩, hd, hd'⟩ := And.intro hb (And.intro hc hd)
    obtain ⟨x, hx⟩ := Utf8.exists_char
      (n := (a.toNat - 0xf0) * 262144 + (b.toNat - 0x80) * 4096 + (c.toNat - 0x80) * 64 +
        (d.toNat - 0x80)) (by omega)
    refine ⟨x, ?_⟩
    simp only [String.utf8EncodeChar, hx]
    rw [if_neg (by omega), if_neg (by omega), if_neg (by omega)]
    simp only [List.cons.injEq, ← UInt8.toNat_inj, UInt8.toNat_ofNat', and_true]
    omega

/-! ### Whole texts -/

theorem toList_toUTF8 (text : String) :
    text.toUTF8.data.toList = text.toList.flatMap String.utf8EncodeChar := by
  conv => lhs; rw [← String.ofList_toList (s := text)]
  rw [String.toUTF8_eq_toByteArray]
  exact congrArg Array.toList List.data_toByteArray

theorem forms_flatMap (cs : List Char) : Forms (cs.flatMap String.utf8EncodeChar) := by
  induction cs with
  | nil => exact .nil
  | cons c cs ih =>
    rw [List.flatMap_cons]
    exact .append (form_utf8EncodeChar c) ih

theorem Forms.exists_chars {bytes : List UInt8} (h : Forms bytes) :
    ∃ cs : List Char, cs.flatMap String.utf8EncodeChar = bytes := by
  induction h with
  | nil => exact ⟨[], rfl⟩
  | append hc hs ih =>
    obtain ⟨c, rfl⟩ := hc.exists_char
    obtain ⟨cs, rfl⟩ := ih
    exact ⟨c :: cs, List.flatMap_cons⟩

theorem wellFormed_iff {data : ByteArray} : WellFormed data ↔ ∃ text : String, text.toUTF8 = data := by
  constructor
  · intro h
    obtain ⟨cs, hcs⟩ := h.exists_chars
    refine ⟨String.ofList cs, ?_⟩
    apply ByteArray.ext
    rw [← Array.toList_inj, toList_toUTF8, String.toList_ofList, hcs]
  · rintro ⟨text, rfl⟩
    rw [WellFormed, toList_toUTF8]
    exact forms_flatMap _

end MicroLisp.Utf8
