import Mathlib.Data.Nat.Find
import MicroLisp.Proofs.Lexer.FlatScan
import MicroLisp.Proofs.Lexer.Progress

/-!
# One stream of answers

A text has one stream of answers, those of `read` called again and again: tokens and
errors, and behind a certain place nothing but the end (`exists_end`).  However
`read` and `next` are mixed, each takes the next answer of that stream, only that
`next` is over once it has met the end or an error (`follows_talk`).
-/

namespace MicroLisp.Lexer

/-- What a run can be asked: for the next token, in either way, and for its line number. -/
inductive Request
  | read
  | next
  | line

inductive Reply
  | read (answer : Except Error (Option Token))
  | next (answer : Option (Except Error Token))
  | line (number : Nat)

/-- True for the replies of `next` behind which it is over. -/
def Reply.stops : Reply → Bool
  | .next none | .next (some (.error _)) => true
  | _ => false

def reply (l : Lexer) : Request → Reply
  | .read => .read l.read.1
  | .next => .next l.next.1
  | .line => .line l.line

def behind (l : Lexer) : Request → Lexer
  | .read => l.read.2
  | .next => l.next.2
  | .line => l

/-- The replies to requests to a new run and the run behind them.  Both the requests and the replies
are given in reverse, the latest first. -/
def talk (text : String) : List Request → List Reply × Lexer
  | [] => ([], ofText text)
  | request :: earlier =>
    let (replies, l) := talk text earlier
    (l.reply request :: replies, l.behind request)

/-! ### The stream -/

/-- The answer of the call of `read` that `n` calls precede. -/
def answerAt (text : String) (n : Nat) : Except Error (Option Token) :=
  ((ofText text).afterReads n).read.1

/-- No earlier `next` has met the end or an error. -/
def live (earlier : List Reply) : Bool := earlier.all fun r => !r.stops

/-- How many of the replies, the latest first, have been taken from the stream. -/
def drawn : List Reply → Nat
  | [] => 0
  | .read _ :: earlier => drawn earlier + 1
  | .next _ :: earlier => if live earlier then drawn earlier + 1 else drawn earlier
  | .line _ :: earlier => drawn earlier

/-- An answer in the form in which `next` gives it. -/
def forNext : Except Error (Option Token) → Option (Except Error Token)
  | .ok none => none
  | .ok (some t) => some (.ok t)
  | .error e => some (.error e)

theorem answerAt_eq_scan (text : String) (n : Nat) :
    answerAt text n =
      (scan ((ofText text).afterReads n).cursor.content).answer text.toList :=
  (within_afterReads text n).readToken_eq.1

theorem content_afterReads_succ (text : String) (n : Nat) :
    ((ofText text).afterReads (n + 1)).cursor.content =
      (scan ((ofText text).afterReads n).cursor.content).rest := by
  rw [afterReads_succ]
  exact (within_afterReads text n).readToken_eq.2.1

theorem answerAt_eq_end_iff (text : String) (n : Nat) :
    answerAt text n = .ok none ↔ scan ((ofText text).afterReads n).cursor.content = .finish := by
  rw [answerAt_eq_scan]
  exact Scan.answer_eq_end_iff

theorem answerAt_succ_eq_end {text : String} {n : Nat} (h : answerAt text n = .ok none) :
    answerAt text (n + 1) = .ok none := by
  rw [answerAt_eq_end_iff] at h ⊢
  rw [content_afterReads_succ, h]
  exact scan_nil

theorem length_content_afterReads {text : String} {n : Nat}
    (h : ∀ i < n, answerAt text i ≠ .ok none) :
    ((ofText text).afterReads n).cursor.content.length + n ≤ text.toList.length := by
  induction n with
  | zero =>
    have hcontent : ((ofText text).afterReads 0).cursor.content = text.toList :=
      Cursor.content_start text.toList []
    rw [hcontent, Nat.add_zero]
  | succ n ih =>
    have hle := ih fun i hi => h i (Nat.lt_succ_of_lt hi)
    -- each answer but the end takes a character of the text at least
    have hlt := length_content_of_read (within_afterReads text n) (h n (Nat.lt_succ_self n))
    rw [afterReads_succ]
    omega

theorem exists_end (text : String) :
    ∃ n ≤ text.toList.length, ∀ i, answerAt text i = .ok none ↔ n ≤ i := by
  have hsome : ∃ i ≤ text.toList.length, answerAt text i = .ok none := by
    by_contra hnone
    have hle := length_content_afterReads (n := text.toList.length + 1)
      fun i hi hend => hnone ⟨i, Nat.le_of_lt_succ hi, hend⟩
    omega
  classical
  have hex : ∃ i, answerAt text i = .ok none := hsome.imp fun i hi => hi.2
  obtain ⟨k, hk, hend⟩ := hsome
  refine ⟨Nat.find hex, (Nat.find_min' hex hend).trans hk, fun i => ⟨fun hi => Nat.find_min' hex hi, ?_⟩⟩
  intro hi
  -- the end is met again at every later call
  induction i, hi using Nat.le_induction with
  | base => exact Nat.find_spec hex
  | succ i _ ih => exact answerAt_succ_eq_end ih

/-! ### Drawing from the stream -/

/-- A run that has come as far as its replies say. -/
structure Follows (text : String) (replies : List Reply) (l : Lexer) : Prop where
  cursor : l.cursor = ((ofText text).afterReads (drawn replies)).cursor
  finished : l.finished = !live replies

theorem next_of_live {l : Lexer} (h : l.finished = false) :
    l.next = (forNext l.read.1, ⟨l.read.2.cursor, (Reply.next (forNext l.read.1)).stops⟩) := by
  rcases hr : l.cursor.readToken with ⟨e | (_ | t), c⟩
  · rw [next_error h hr, read, hr]
    rfl
  · rw [next_end h hr, read, hr]
    rfl
  · rw [next_token h hr, read, hr]
    rfl

theorem live_cons (r : Reply) (earlier : List Reply) :
    live (r :: earlier) = (!r.stops && live earlier) := rfl

variable {text : String} {replies : List Reply} {l : Lexer}

theorem Follows.answer (h : Follows text replies l) :
    l.read.1 = answerAt text (drawn replies) ∧
      l.read.2.cursor = ((ofText text).afterReads (drawn replies + 1)).cursor := by
  rw [afterReads_succ, answerAt, read, read, h.cursor]
  exact ⟨rfl, rfl⟩

theorem Follows.step (h : Follows text replies l) (request : Request) :
    Follows text (l.reply request :: replies) (l.behind request) := by
  cases request with
  | read => exact ⟨h.answer.2, h.finished⟩
  | line => exact ⟨h.cursor, h.finished⟩
  | next =>
    cases hlive : live replies with
    | true =>
      have hf : l.finished = false := by rw [h.finished, hlive]; rfl
      refine ⟨?_, ?_⟩
      · show l.next.2.cursor = _
        rw [reply, drawn, if_pos hlive, next_of_live hf]
        exact h.answer.2
      · show l.next.2.finished = _
        rw [live_cons, hlive, reply, next_of_live hf, Bool.and_true, Bool.not_not]
    | false =>
      have hf : l.finished = true := by rw [h.finished, hlive]; rfl
      refine ⟨?_, ?_⟩
      · show l.next.2.cursor = _
        rw [reply, drawn, hlive, next_of_finished hf]
        exact h.cursor
      · show l.next.2.finished = _
        rw [live_cons, hlive, Bool.and_false, next_of_finished hf]
        exact hf

theorem follows_talk (text : String) (requests : List Request) :
    Follows text (talk text requests).1 (talk text requests).2 := by
  induction requests with
  | nil => exact ⟨rfl, rfl⟩
  | cons request earlier ih => exact ih.step request

/-! ### Draining what is left -/

theorem drain_stream {n : Nat} (hc : l.cursor = ((ofText text).afterReads n).cursor)
    (hf : l.finished = false) :
    (∀ i t, l.drain.tokens[i]? = some t → answerAt text (n + i) = .ok (some t)) ∧
      answerAt text (n + l.drain.tokens.length) =
        match l.drain.failure with
        | none => .ok none
        | some e => .error e := by
  induction hn : l.cursor.content.length using Nat.strongRecOn generalizing l n with
  | _ k ih =>
    have hanswer : l.cursor.readToken.1 = answerAt text n := by
      rw [answerAt, read, ← hc]
    rcases hr : l.cursor.readToken with ⟨e | (_ | t), c⟩
    · rw [hr] at hanswer
      rw [drain_error (next_error hf hr)]
      exact ⟨fun i t hi => absurd hi (by simp), hanswer.symm⟩
    · rw [hr] at hanswer
      rw [drain_end (next_end hf hr)]
      exact ⟨fun i t hi => absurd hi (by simp), hanswer.symm⟩
    · rw [hr] at hanswer
      have hlt := Cursor.length_content_of_readToken hr
      have hnext : c = ((ofText text).afterReads (n + 1)).cursor := by
        rw [afterReads_succ, read, ← hc, hr]
      obtain ⟨htokens, hend⟩ := ih c.content.length (hn ▸ hlt) (l := ⟨c, false⟩) hnext rfl rfl
      rw [drain_token (next_token hf hr)]
      refine ⟨?_, ?_⟩
      · intro i s hi
        cases i with
        | zero =>
          obtain rfl := Option.some.inj hi
          exact hanswer.symm
        | succ i =>
          rw [Nat.add_comm i 1, ← Nat.add_assoc]
          exact htokens i s hi
      · rw [List.length_cons, Nat.add_comm _ 1, ← Nat.add_assoc]
        exact hend

theorem tokens_of_finished (hf : l.finished = true) : l.tokens = .ok [] := by
  rw [tokens, drain_end (next_of_finished hf), Outcome.result]

/-- The answers of a text are tokens and errors up to a place and the end from there on.  Behind any
requests to a run over the text, `read` gives the next answer that has not been drawn, and so does
`next` as long as it is live; a `next` that is not live changes nothing.  Whether the run is finished
is neither seen nor changed by `read`.  The tokens of the rest are the answers from there on up to
the end, or else the first error among them. -/
theorem stream_of_answers (text : String) (requests : List Request) :
    (∃ n ≤ text.toList.length, ∀ i, answerAt text i = .ok none ↔ n ≤ i) ∧
      let replies := (talk text requests).1
      let l := (talk text requests).2
      let n := drawn replies
      l.read.1 = answerAt text n ∧
        l.line = ((ofText text).afterReads n).line ∧
        (∀ b : Bool, ({ l with finished := b } : Lexer).read =
          (l.read.1, { l.read.2 with finished := b })) ∧
        if live replies then
          l.next.1 = forNext (answerAt text n) ∧
            ∃ ts : List Token,
              (∀ i t, ts[i]? = some t → answerAt text (n + i) = .ok (some t)) ∧
                ((answerAt text (n + ts.length) = .ok none ∧ l.tokens = .ok ts) ∨
                  ∃ e, answerAt text (n + ts.length) = .error e ∧ l.tokens = .error e)
        else l.next = (none, l) ∧ l.tokens = .ok [] := by
  refine ⟨exists_end text, ?_⟩
  intro replies l n
  have h : Follows text replies l := follows_talk text requests
  refine ⟨h.answer.1, by rw [line, h.cursor, line], fun b => rfl, ?_⟩
  cases hlive : live replies with
  | true =>
    have hf : l.finished = false := by rw [h.finished, hlive]; rfl
    obtain ⟨htokens, hend⟩ := drain_stream h.cursor hf
    rw [if_pos rfl, next_of_live hf, h.answer.1]
    refine ⟨rfl, l.drain.tokens, htokens, ?_⟩
    cases hfailure : l.drain.failure with
    | none =>
      rw [hfailure] at hend
      exact Or.inl ⟨hend, tokens_eq_ok_iff.mpr ⟨hfailure, rfl⟩⟩
    | some e =>
      rw [hfailure] at hend
      exact Or.inr ⟨e, hend, tokens_eq_error_iff.mpr hfailure⟩
  | false =>
    have hf : l.finished = true := by rw [h.finished, hlive]; rfl
    rw [if_neg Bool.false_ne_true]
    exact ⟨next_of_finished hf, tokens_of_finished hf⟩

/-- An error that `next` has met: `read` goes on behind it, and `next` and `tokens` do not.  An error
that `read` has met does not stop `next`. -/
theorem stream_of_answers_behind_error :
    let stopped := (talk "\"\\q a" [.next]).2
    let started := (talk "\"\\q a" [.read]).2
    stopped.read.1 = .ok (some (.symbol "a")) ∧
      stopped.next = (none, stopped) ∧
      stopped.tokens = .ok [] ∧
      started.next.1 = some (.ok (.symbol "a")) := by
  have hanswer : answerAt "\"\\q a" 1 = .ok (some (.symbol "a")) := by decide +kernel
  obtain ⟨-, hread, -, -, hstopped⟩ := stream_of_answers "\"\\q a" [.next]
  obtain ⟨-, -, -, -, hstarted⟩ := stream_of_answers "\"\\q a" [.read]
  have hdrawn : drawn (talk "\"\\q a" [.next]).1 = 1 := rfl
  have hlive : live (talk "\"\\q a" [.next]).1 = false := by decide +kernel
  have hlive' : live (talk "\"\\q a" [.read]).1 = true := rfl
  rw [if_neg (by rw [hlive]; exact Bool.false_ne_true)] at hstopped
  rw [if_pos hlive'] at hstarted
  rw [hdrawn, hanswer] at hread
  exact ⟨hread, hstopped.1, hstopped.2, hstarted.1.trans (congrArg forNext hanswer)⟩

end MicroLisp.Lexer
