import MicroLisp.Input
import MicroLisp.Proofs.Lexer.Run
import MicroLisp.Proofs.Text.Utf8

/-!
# What a stream delivers

A stream that goes on up to its end delivers bytes, and the way in which they are cut
and the reads that were interrupted are lost when it is read: its tokens are those of
the text with these bytes (`tokens_of_stream`).  A failing read comes before bytes that
are no text, and these come before the errors of a text.
-/

namespace MicroLisp

variable {pieces rest : List Delivery} {data : ByteArray}

/-- Deliveries that bring `data`, in chunks that are not empty and with interrupted reads anywhere
between them. -/
inductive Delivers : List Delivery → ByteArray → Prop
  | nil : Delivers [] ByteArray.empty
  | interrupted {pieces : List Delivery} {data : ByteArray} :
      Delivers pieces data → Delivers (.interrupted :: pieces) data
  | bytes {chunk data : ByteArray} {pieces : List Delivery} :
      chunk.isEmpty = false → Delivers pieces data → Delivers (.bytes chunk :: pieces) (chunk ++ data)

/-- The end of an input: there is nothing more, or a read without bytes in front of anything. -/
def Ends (rest : List Delivery) : Prop :=
  rest = [] ∨ ∃ behind, rest = .bytes ByteArray.empty :: behind

/-! ### Collecting the bytes -/

theorem Delivers.collect (h : Delivers pieces data) (before : ByteArray) (rest : List Delivery) :
    Delivery.collect before (pieces ++ rest) = Delivery.collect (before ++ data) rest := by
  induction h generalizing before with
  | nil => rw [List.nil_append, ByteArray.append_empty]
  | interrupted _ ih =>
    rw [List.cons_append, Delivery.collect]
    exact ih before
  | @bytes chunk data pieces hchunk _ ih =>
    rw [List.cons_append, Delivery.collect, if_neg (by simp [hchunk]), ih, ByteArray.append_assoc]

theorem Ends.collect (h : Ends rest) (before : ByteArray) :
    Delivery.collect before rest = .ok before := by
  rcases h with rfl | ⟨behind, rfl⟩
  · rfl
  · rfl

/-! ### From bytes to a text -/

theorem decodeText_toUTF8 (text : String) : decodeText text.toUTF8 = .ok text := by
  have hdecode : String.fromUTF8? text.toUTF8 = some text := by
    rw [String.fromUTF8?, String.toUTF8_eq_toByteArray, dif_pos text.isValidUTF8]
    rfl
  rw [decodeText, hdecode]

theorem decodeText_of_not_wellFormed (h : ¬ Utf8.WellFormed data) :
    decodeText data = .error (.io "stream did not contain valid UTF-8") := by
  have hdecode : String.fromUTF8? data = none := by
    refine dif_neg fun hvalid => h (Utf8.wellFormed_iff.mpr ?_)
    exact ⟨String.fromUTF8 data hvalid, rfl⟩
  rw [decodeText, hdecode]

theorem readText_ends (h : Delivers pieces data) (hrest : Ends rest) :
    readText (pieces ++ rest) = decodeText data := by
  rw [readText, h.collect, ByteArray.empty_append, hrest.collect]
  rfl

theorem readText_failure (h : Delivers pieces data) (message : String) (behind : List Delivery) :
    readText (pieces ++ .failure message :: behind) = .error (.io message) := by
  rw [readText, h.collect]
  rfl

namespace Lexer

theorem ofStream_of_readText {stream : List Delivery} {text : String}
    (h : readText stream = .ok text) :
    ofStream stream = .ok (start text [.inputRead text.utf8ByteSize]) := by
  rw [ofStream, h]
  rfl

theorem start_of_ofStream {stream : List Delivery} {l : Lexer} (h : ofStream stream = .ok l) :
    ∃ text, l = start text [.inputRead text.utf8ByteSize] := by
  rw [ofStream] at h
  cases htext : readText stream with
  | error e =>
    rw [htext] at h
    cases h
  | ok text =>
    rw [htext] at h
    exact ⟨text, (Except.ok.inj h).symm⟩

theorem ofStream_of_text (h : Delivers pieces data) (hrest : Ends rest) {text : String}
    (htext : text.toUTF8 = data) :
    ofStream (pieces ++ rest) = .ok (start text [.inputRead text.utf8ByteSize]) := by
  apply ofStream_of_readText
  rw [readText_ends h hrest, ← htext, decodeText_toUTF8]

theorem ofStream_of_not_wellFormed (h : Delivers pieces data) (hrest : Ends rest)
    (hdata : ¬ Utf8.WellFormed data) :
    ofStream (pieces ++ rest) = .error (.io "stream did not contain valid UTF-8") := by
  rw [ofStream, readText_ends h hrest, decodeText_of_not_wellFormed hdata]
  rfl

theorem ofStream_failure (h : Delivers pieces data) (message : String) (behind : List Delivery) :
    ofStream (pieces ++ .failure message :: behind) = .error (.io message) := by
  rw [ofStream, readText_failure h message behind]
  rfl

theorem ofStream_congr {pieces' rest' : List Delivery} (h : Delivers pieces data)
    (hrest : Ends rest) (h' : Delivers pieces' data) (hrest' : Ends rest') :
    ofStream (pieces' ++ rest') = ofStream (pieces ++ rest) := by
  rw [ofStream, ofStream, readText_ends h hrest, readText_ends h' hrest']

/-- A stream that delivers bytes up to its end has the tokens of the text with these bytes, or fails
if they are not well-formed UTF-8; another stream that delivers the same bytes has the same tokens.
A stream that fails behind any bytes fails as a whole, and in no other way. -/
theorem tokens_of_stream (h : Delivers pieces data) :
    (Utf8.WellFormed data ↔ ∃ text : String, text.toUTF8 = data) ∧
      (∀ rest, Ends rest →
        (∀ text : String, text.toUTF8 = data →
          ofStream (pieces ++ rest) >>= tokens = (ofText text).tokens) ∧
        (¬ Utf8.WellFormed data →
          ofStream (pieces ++ rest) >>= tokens =
            .error (.io "stream did not contain valid UTF-8")) ∧
        ∀ pieces' rest', Delivers pieces' data → Ends rest' →
          ofStream (pieces' ++ rest') >>= tokens = ofStream (pieces ++ rest) >>= tokens) ∧
      ∀ message behind,
        ofStream (pieces ++ .failure message :: behind) >>= tokens = .error (.io message) := by
  refine ⟨Utf8.wellFormed_iff, fun rest hrest => ⟨?_, ?_, ?_⟩, ?_⟩
  · intro text htext
    rw [ofStream_of_text h hrest htext]
    exact tokens_start text _
  · intro hdata
    rw [ofStream_of_not_wellFormed h hrest hdata]
    rfl
  · intro pieces' rest' h' hrest'
    rw [ofStream_congr h hrest h' hrest']
  · intro message behind
    rw [ofStream_failure h message behind]
    rfl

def cutCharacter : List Delivery := [.bytes ⟨#[0xc3]⟩, .interrupted, .bytes ⟨#[0xa9]⟩]

theorem delivers_cutCharacter : Delivers cutCharacter "é".toUTF8 := by
  have hbytes : (⟨#[0xc3]⟩ : ByteArray) ++ ((⟨#[0xa9]⟩ : ByteArray) ++ ByteArray.empty) = "é".toUTF8 := by
    decide +kernel
  rw [← hbytes]
  exact .bytes rfl (.interrupted (.bytes rfl .nil))

/-- The bytes of a character in two chunks: nothing behind the end is seen, and a failure in its place
is all that is seen. -/
theorem tokens_of_stream_cutCharacter :
    Delivers cutCharacter "é".toUTF8 ∧
      ofStream (cutCharacter ++ [.bytes ByteArray.empty, .failure "late"]) >>= tokens = .ok [.symbol "é"] ∧
      ofStream (cutCharacter ++ [.failure "broken"]) >>= tokens = .error (.io "broken") := by
  obtain ⟨-, hends, hfails⟩ := tokens_of_stream delivers_cutCharacter
  have htokens : (ofText "é").tokens = .ok [.symbol "é"] := tokens_eq_ok_iff.mpr (by decide +kernel)
  have hread := (hends [.bytes ByteArray.empty, .failure "late"] (Or.inr ⟨_, rfl⟩)).1 "é" rfl
  exact ⟨delivers_cutCharacter, hread.trans htokens, hfails "broken" []⟩

end Lexer
end MicroLisp
