import MicroLisp.Proofs.Command.Report
import MicroLisp.Proofs.Lexer.RoundTrip
import MicroLisp.Proofs.Token.Json

/-!
# A dump in JSON determines its tokens

No token in JSON holds a newline, so that the lines of a dump are its tokens again,
one by one.  Two dumps that agree are of the same tokens, except that one infinity may
stand for the other (`output_determines_tokens`).
-/

namespace MicroLisp

namespace Lexer

/-- The tokens that come out of a stream before its end or the first error. -/
def delivered (stream : List Delivery) : List Token :=
  match ofStream stream with
  | .ok l => l.drain.tokens
  | .error _ => []

theorem delivered_of_text {pieces rest : List Delivery} {data : ByteArray} (h : Delivers pieces data)
    (hrest : Ends rest) {text : String} (htext : text.toUTF8 = data) :
    delivered (pieces ++ rest) = (ofText text).drain.tokens := by
  rw [delivered, ofStream_of_text h hrest htext]
  exact (delivers_start text _).1

theorem exists_lexeme_of_delivered {stream : List Delivery} {t : Token}
    (h : t ∈ delivered stream) : ∃ spelling, Grammar.Lexeme spelling t := by
  unfold delivered at h
  split at h
  · next l hl =>
    obtain ⟨text, rfl⟩ := start_of_ofStream hl
    exact exists_lexeme_of_mem_drain (Cursor.within_start text.toList _) h
  · cases h

end Lexer

theorem forall₂_of_map_eq {α β : Type} {f : α → β} {R : α → α → Prop} {as bs : List α}
    (hR : ∀ a ∈ as, ∀ b ∈ bs, f a = f b → R a b) (h : as.map f = bs.map f) :
    List.Forall₂ R as bs := by
  induction as generalizing bs with
  | nil =>
    rw [List.map_nil] at h
    rw [List.map_eq_nil_iff.mp h.symm]
    exact .nil
  | cons a as ih =>
    obtain ⟨b, bs, rfl, hab, hrest⟩ := List.map_eq_cons_iff.mp h.symm
    refine .cons (hR a List.mem_cons_self b List.mem_cons_self hab.symm) (ih ?_ hrest.symm)
    exact fun a' ha b' hb => hR a' (List.mem_cons_of_mem a ha) b' (List.mem_cons_of_mem b hb)

theorem Token.forall₂_same {ts us : List Token} (ht : ∀ x, .float x ∈ ts → x.isNaN = false)
    (hu : ∀ x, .float x ∈ us → x.isNaN = false)
    (h : ts.map (fun t => t.jsonText.toList) = us.map fun t => t.jsonText.toList) :
    List.Forall₂ SameInJson ts us := by
  refine forall₂_of_map_eq (fun t htmem u humem htext => ?_) h
  refine same_of_jsonText_eq ?_ ?_ (String.toList_inj.mp htext)
  · rintro x rfl
    exact ht x htmem
  · rintro x rfl
    exact hu x humem

namespace Dump

theorem output_eq (json : Bool) (stream : List Delivery) :
    (ofStream json stream).output =
      String.join ((Lexer.delivered stream).map (line json)) := by
  unfold ofStream Lexer.delivered
  cases Lexer.ofStream stream with
  | ok l => rfl
  | error e => rfl

theorem toList_join_newline (texts : List String) :
    (String.join (texts.map (· ++ "\n"))).toList =
      ['\n'].intercalate (texts.map String.toList ++ [[]]) := by
  induction texts with
  | nil => rfl
  | cons text texts ih =>
    obtain ⟨first, rest, hne⟩ : ∃ first rest, texts.map String.toList ++ [[]] = first :: rest :=
      List.exists_cons_of_ne_nil (by simp)
    rw [List.map_cons, List.map_cons, List.cons_append, String.join_cons, String.toList_append, ih, hne]
    simp [List.intercalate]

/-- Texts without newlines are the lines of what they are put together to, with nothing behind the
last newline. -/
theorem splitOn_join_newline {texts : List String} (h : ∀ text ∈ texts, '\n' ∉ text.toList) :
    (String.join (texts.map (· ++ "\n"))).toList.splitOn '\n' =
      texts.map String.toList ++ [[]] := by
  rw [toList_join_newline]
  apply List.splitOn_intercalate '\n' _ (by simp)
  intro l hl hnewline
  rcases List.mem_append.mp hl with hl | hl
  · obtain ⟨text, htext, rfl⟩ := List.mem_map.mp hl
    exact h text htext hnewline
  · rw [List.mem_singleton.mp hl] at hnewline
    cases hnewline

theorem splitOn_join_lines (ts : List Token) :
    (String.join (ts.map (line true))).toList.splitOn '\n' =
      ts.map (fun t => t.jsonText.toList) ++ [[]] := by
  have hlines : ts.map (line true) = (ts.map Token.jsonText).map (· ++ "\n") := by
    rw [List.map_map]
    rfl
  rw [hlines, splitOn_join_newline, List.map_map]
  · rfl
  · intro text htext hnewline
    obtain ⟨t, -, rfl⟩ := List.mem_map.mp htext
    exact absurd (t.jsonText_no_control '\n' hnewline) (by decide)

end Dump

namespace Command.Invocation

variable {i : Invocation} {o : Options}

def delivered (i : Invocation) (o : Options) : List Token :=
  match i.program o with
  | .ok stream => Lexer.delivered stream
  | .error _ => []

theorem exists_lexeme_of_delivered {t : Token} (h : t ∈ i.delivered o) :
    ∃ spelling, Grammar.Lexeme spelling t := by
  unfold delivered at h
  split at h
  · exact Lexer.exists_lexeme_of_delivered h
  · cases h

theorem isNaN_of_delivered {x : Binary64} (h : .float x ∈ i.delivered o) : x.isNaN = false := by
  obtain ⟨spelling, hlexeme⟩ := exists_lexeme_of_delivered h
  exact hlexeme.isNaN rfl

theorem output_eq_join (hi : Command.options i.env i.arguments = .ok o) :
    i.report.output = String.join ((i.delivered o).map (Dump.line o.json)) := by
  cases hprogram : i.program o with
  | ok stream =>
    have hreads : i.Reads o stream := ⟨hi, hprogram⟩
    have houtput : i.report.output = (Dump.ofStream o.json stream).output := by
      rw [hreads.report_eq]
      unfold reportDump
      split
      · rfl
      · rfl
    rw [houtput, Dump.output_eq, delivered, hprogram]
  | error reason =>
    have houtput : i.report.output = "" := by
      unfold program at hprogram
      split at hprogram
      · cases hprogram
      · next name hfile =>
        rw [report, run, hi]
        dsimp only
        rw [hfile]
        dsimp only
        rw [hprogram]
        rfl
    rw [houtput, delivered, hprogram]
    rfl

theorem output_eq (hi : Command.options i.env i.arguments = .ok o) (hjson : o.json = true) :
    i.report.output = String.join ((i.delivered o).map (Dump.line true)) := by
  rw [output_eq_join hi, hjson]

/-- A dump in JSON has one line for each token that is delivered, which is that token in JSON and free
of control characters.  Another dump with the same output is of the same tokens, up to the sign of
infinities. -/
theorem output_determines_tokens (hi : Command.options i.env i.arguments = .ok o)
    (hjson : o.json = true) :
    i.report.output.toList.splitOn '\n' =
        (i.delivered o).map (fun t => t.jsonText.toList) ++ [[]] ∧
      (∀ t : Token, ∀ c ∈ t.jsonText.toList, 0x20 ≤ c.toNat) ∧
      ∀ (j : Invocation) (o' : Options), Command.options j.env j.arguments = .ok o' →
        o'.json = true → j.report.output = i.report.output →
          List.Forall₂ Token.SameInJson (i.delivered o) (j.delivered o') := by
  have hlines : i.report.output.toList.splitOn '\n' =
      (i.delivered o).map (fun t => t.jsonText.toList) ++ [[]] := by
    rw [output_eq hi hjson, Dump.splitOn_join_lines]
  refine ⟨hlines, Token.jsonText_no_control, fun j o' hj hjson' heq => ?_⟩
  rw [← heq, output_eq hj hjson', Dump.splitOn_join_lines] at hlines
  exact Token.forall₂_same (fun _ => isNaN_of_delivered) (fun _ => isNaN_of_delivered)
    (List.append_cancel_right hlines.symm)

def dumped (program : String) : Invocation :=
  ⟨⟨none, none, none⟩, ["--json"], [.bytes program.toUTF8], fun _ => .error "", fun _ _ _ => ""⟩

theorem delivered_dumped {program : String} (h : program.toUTF8.isEmpty = false) :
    (dumped program).delivered ⟨true, false, false, none⟩ = (Lexer.ofText program).drain.tokens :=
  Lexer.delivered_of_text (.bytes h .nil) (Or.inl rfl) ByteArray.append_empty.symm

/-- Two programs that are told apart by nothing but the signs of infinities. -/
theorem output_determines_tokens_infinities :
    (dumped "a 1e+999").report.output.toList.splitOn '\n' =
        ["\x7b\"type\":\"symbol\",\"value\":\"a\"\x7d".toList,
          "\x7b\"type\":\"float\",\"value\":null\x7d".toList, []] ∧
      (dumped "a -1e+999").report.output = (dumped "a 1e+999").report.output ∧
      List.Forall₂ Token.SameInJson [.symbol "a", .float (.infinity false)]
        [.symbol "a", .float (.infinity true)] := by
  have hpositive : (dumped "a 1e+999").delivered ⟨true, false, false, none⟩ =
      [.symbol "a", .float (.infinity false)] :=
    (delivered_dumped (by decide +kernel)).trans (by decide +kernel)
  have hnegative : (dumped "a -1e+999").delivered ⟨true, false, false, none⟩ =
      [.symbol "a", .float (.infinity true)] :=
    (delivered_dumped (by decide +kernel)).trans (by decide +kernel)
  have hoptions : Command.options ⟨none, none, none⟩ ["--json"] = .ok ⟨true, false, false, none⟩ := by
    decide +kernel
  have houtput : (dumped "a -1e+999").report.output = (dumped "a 1e+999").report.output := by
    rw [output_eq hoptions rfl, output_eq hoptions rfl, hpositive, hnegative]
    decide +kernel
  obtain ⟨hlines, -, hsame⟩ := output_determines_tokens hoptions rfl (i := dumped "a 1e+999")
  have hforall := hsame (dumped "a -1e+999") _ hoptions rfl houtput
  rw [hpositive] at hlines hforall
  rw [hnegative] at hforall
  exact ⟨hlines.trans (by decide +kernel), houtput, hforall⟩

end Command.Invocation
end MicroLisp
