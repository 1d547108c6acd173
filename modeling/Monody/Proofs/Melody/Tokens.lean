import Mathlib.Data.List.Basic
import Monody.Melody.Printer

/-!
# Reading tokens again

A token is known by its spelling: its characters that count and its slice. Reading its slice again
gives the same token, if the reader stands where the token can start. A comment and a token with a
starter can start anywhere outside comments and parentheses; a stray token, whose first character
starts none, can start only where no token is open. All this holds of the tokens of any score, and
so they can be joined with spaces and are found again.

## Main definitions

* `advance` — what a stretch of characters does to the token that is open
* `Receives` — where a token can start
* `Faithful` — an open token whose slice so far reads as it
* `Readable` — tokens each of which can start where the ones before it leave off
* `IsReread` — the tokens of the rest of a score are readable
* `IsWritten` — what may stand for a token

## Main results

* `readable_tokens` — the tokens of a score are readable
* `spelling_scan_joinTokens` — readable tokens, joined with spaces, are found again
-/

namespace Monody.Melody

variable {pos : Nat} {t t₀ : Option OpenToken} {u : OpenToken} {c : Char} {cs ds rest w : List Char}
  {next : Option Char} {b : Bool} {token : Token} {ts : List Token}

/-! ## Stretches of characters -/

/-- A stretch of characters and the one after it: the tokens that it finishes, and the token that is
open then. -/
def advance (pos : Nat) (t : Option OpenToken) (next : Option Char) :
    List Char → List Token × Option OpenToken
  | [] => ([], t)
  | c :: cs =>
    let p := step pos t c (cs.head?.or next)
    let q := advance (pos + 1) p.2 next cs
    (p.1 ++ q.1, q.2)

theorem advance_append :
    advance pos t next (cs ++ ds) =
      ((advance pos t (ds.head?.or next) cs).1 ++
          (advance (pos + cs.length) (advance pos t (ds.head?.or next) cs).2 next ds).1,
        (advance (pos + cs.length) (advance pos t (ds.head?.or next) cs).2 next ds).2) := by
  induction cs generalizing pos t with
  | nil => simp [advance]
  | cons c cs ih =>
    have hhead : (cs ++ ds).head?.or next = cs.head?.or (ds.head?.or next) := by
      cases cs <;> simp
    have hpos : pos + 1 + cs.length = pos + (c :: cs).length := by
      rw [List.length_cons]
      omega
    simp only [List.cons_append, advance, hhead, ih, hpos, List.append_assoc]

theorem scan_append :
    scan pos t (cs ++ rest) = (advance pos t rest.head? cs).1 ++
      scan (pos + cs.length) (advance pos t rest.head? cs).2 rest := by
  induction cs generalizing pos t with
  | nil => simp [advance]
  | cons c cs ih =>
    have hhead : (cs ++ rest).head? = cs.head?.or rest.head? := by cases cs <;> simp
    have hpos : pos + 1 + cs.length = pos + (c :: cs).length := by
      rw [List.length_cons]
      omega
    simp only [List.cons_append, scan, advance, hhead, ih, hpos, List.append_assoc]

/-! ## Single characters -/

theorem isStarter_iff : isStarter c = true ↔
    (65 ≤ c.toNat ∧ c.toNat ≤ 71) ∨ (97 ≤ c.toNat ∧ c.toNat ≤ 103) ∨ c.toNat = 80 ∨
      c.toNat = 112 := by
  have hcode (d : Char) : c = d ↔ c.toNat = d.toNat :=
    ⟨fun h => h ▸ rfl, fun h => Char.toNat_inj.mp h⟩
  simp only [isStarter, Bool.or_eq_true, Bool.and_eq_true, decide_eq_true_eq, beq_iff_eq,
    Char.le_def, UInt32.le_iff_toNat_le, hcode, or_assoc]
  rfl

theorem not_isStarter_of_isBlank (h : Text.isBlank c) : isStarter c = false := by
  rw [Bool.eq_false_iff, ne_eq, isStarter_iff]
  simp only [Text.isBlank, Text.blankRanges, List.any_cons, List.any_nil, Bool.or_eq_true,
    Bool.and_eq_true, decide_eq_true_eq, Bool.false_eq_true, or_false] at h
  omega

theorem ne_slash_of_isBlank (h : Text.isBlank c) : c ≠ '/' := by
  rintro rfl
  exact absurd h (by decide)

/-- White space outside parentheses and comments is passed over. -/
theorem stepPlain_of_isBlank (h : Text.isBlank c) :
    stepPlain pos t c next = ([], t.map (·.skip c)) := by
  have hslash : ¬ (c = '/' ∧ next = some '/') := fun hand => ne_slash_of_isBlank h hand.1
  have hstarter : ¬ isStarter c = true := by simp [not_isStarter_of_isBlank h]
  rw [stepPlain.eq_def, if_neg hslash, if_neg hstarter, if_pos h]

/-- A character that starts a token finishes the one before. -/
theorem stepPlain_of_isStarter (h : isStarter c) :
    stepPlain pos t c next = (flush t, some (.first pos .plain c)) := by
  have hslash : ¬ (c = '/' ∧ next = some '/') := by
    rintro ⟨rfl, -⟩
    exact absurd h (by decide)
  rw [stepPlain.eq_def, if_neg hslash, if_pos h]

/-- Two slashes open a comment and finish the token before it. -/
theorem stepPlain_slash : stepPlain pos t '/' (some '/') = (flush t, some (.first pos .opening '/')) := by
  rw [stepPlain.eq_def, if_pos ⟨rfl, rfl⟩]

/-- Any other character belongs to the token that is open, or is a stray token of its own. -/
theorem stepPlain_of_not (hslash : ¬ (c = '/' ∧ next = some '/')) (hstarter : ¬ isStarter c)
    (hblank : ¬ Text.isBlank c) :
    stepPlain pos t c next =
      ([], some (match t with
        | none => .first pos (modeAfter c) c
        | some u => u.push (modeAfter c) c)) := by
  rw [stepPlain.eq_def, if_neg hslash, if_neg hstarter, if_neg hblank]
  cases t <;> rfl

/-! ## Reading a slice again -/

/-- A token can start here: where no token is open, or, unless it is stray, after one that is open
outside parentheses and comments. -/
def Receives (stray : Bool) (t : Option OpenToken) : Prop :=
  t = none ∨ stray = false ∧ ∃ u, t = some u ∧ u.mode = .plain

theorem Receives.step (h : Receives b t) : step pos t c next = stepPlain pos t c next := by
  rcases h with rfl | ⟨-, u, rfl, hmode⟩
  · rfl
  · simp only [Melody.step, hmode]

/-- Outside parentheses and comments a character opens a comment, starts a token, is white space, or
belongs to the token that is open, or to a stray one where none is. -/
theorem scan_cons_of_receives {P : List Token → Prop} (ht : Receives false t)
    (hslash : c = '/' → rest.head? = some '/' →
      P (flush t ++ scan (pos + 1) (some (.first pos .opening c)) rest))
    (hstarter : isStarter c = true → P (flush t ++ scan (pos + 1) (some (.first pos .plain c)) rest))
    (hblank : Text.isBlank c = true → P (scan (pos + 1) (t.map (·.skip c)) rest))
    (hother : ¬ (c = '/' ∧ rest.head? = some '/') → ¬ isStarter c → ¬ Text.isBlank c →
      P (scan (pos + 1) (some (match t with
        | none => .first pos (modeAfter c) c
        | some u => u.push (modeAfter c) c)) rest)) : P (scan pos t (c :: rest)) := by
  rw [scan, ht.step]
  by_cases hopen : c = '/' ∧ rest.head? = some '/'
  · obtain ⟨rfl, hhead⟩ := hopen
    rw [hhead, stepPlain_slash]
    exact hslash rfl hhead
  by_cases hstart : isStarter c
  · rw [stepPlain_of_isStarter hstart]
    exact hstarter hstart
  by_cases hskip : Text.isBlank c
  · rw [stepPlain_of_isBlank hskip]
    exact hblank hskip
  · rw [stepPlain_of_not hopen hstart hskip]
    exact hother hopen hstart hskip

/-- The slice of an open token so far reads as it, if what follows next is a slash exactly where it
was one before. -/
structure Faithful (stray : Bool) (u : OpenToken) (rest : List Char) : Prop where
  gap : ∀ c ∈ u.gap, Text.isBlank c = true
  plain : u.gap ≠ [] → u.mode = .plain
  comment : u.mode ≠ .plain → u.mode ≠ .parenthesis → stray = false ∧ u.text.getLast? = some '/'
  /-- A slash outside parentheses and comments is not followed by another. -/
  edge : u.mode = .plain → u.text.head? = some '/' → (u.gap.reverse ++ rest).head? ≠ some '/'
  again : ∀ pos t next, Receives stray t →
    (next = some '/' ↔ (u.gap.reverse ++ rest).head? = some '/') →
    advance pos t next u.raw.reverse = (flush t, some ⟨pos, u.mode, u.text, u.raw, []⟩)

namespace Faithful

theorem advance_singleton : advance pos t next [c] = step pos t c next := by
  simp [advance]

theorem starter (h : isStarter c) : Faithful false (.first pos .plain c) rest where
  gap := fun _ hc => absurd hc List.not_mem_nil
  plain hgap := absurd rfl hgap
  comment hmode := absurd rfl hmode
  edge _ htext := by
    obtain rfl : c = '/' := Option.some.inj htext
    exact absurd h (by decide)
  again pos t next ht _ := by
    exact advance_singleton.trans (ht.step.trans (stepPlain_of_isStarter h))

theorem opening (h : rest.head? = some '/') : Faithful false (.first pos .opening '/') rest where
  gap := fun _ hc => absurd hc List.not_mem_nil
  plain hgap := absurd rfl hgap
  comment _ _ := ⟨rfl, rfl⟩
  edge := by simp [OpenToken.first]
  again pos t next ht hnext := by
    obtain rfl : next = some '/' := hnext.mpr h
    exact advance_singleton.trans (ht.step.trans stepPlain_slash)

theorem stray (hslash : ¬ (c = '/' ∧ rest.head? = some '/')) (hstarter : ¬ isStarter c)
    (hblank : ¬ Text.isBlank c) : Faithful true (.first pos (modeAfter c) c) rest where
  gap := fun _ hc => absurd hc List.not_mem_nil
  plain hgap := absurd rfl hgap
  comment hmode hmode' := by
    have hafter : (OpenToken.first pos (modeAfter c) c).mode = modeAfter c := rfl
    rw [hafter, modeAfter] at hmode hmode'
    split at hmode <;> simp_all
  edge _ htext := fun hrest => hslash ⟨Option.some.inj htext, hrest⟩
  again pos t next ht hnext := by
    have hslash' : ¬ (c = '/' ∧ next = some '/') := fun h => hslash ⟨h.1, hnext.mp h.2⟩
    obtain rfl : t = none := ht.resolve_right fun h => Bool.noConfusion h.1
    exact advance_singleton.trans (ht.step.trans (stepPlain_of_not hslash' hstarter hblank))

/-- White space after an open token is passed over. -/
theorem skip (h : Faithful b u (c :: rest)) (hmode : u.mode = .plain) (hblank : Text.isBlank c) :
    Faithful b (u.skip c) rest where
  gap := by
    intro d hd
    rcases List.mem_cons.mp hd with rfl | hd
    · exact hblank
    · exact h.gap d hd
  plain _ := hmode
  comment := h.comment
  edge := by
    simpa [OpenToken.skip] using h.edge
  again := by
    simpa [OpenToken.skip] using h.again

theorem advance_gap {v : OpenToken} {gap : List Char} (hgap : ∀ c ∈ gap, Text.isBlank c = true)
    (hplain : gap ≠ [] → v.mode = .plain) :
    advance pos (some v) next gap = ([], some { v with gap := gap.reverse ++ v.gap }) := by
  induction gap generalizing pos v with
  | nil => rfl
  | cons c gap ih =>
    have hmode := hplain (List.cons_ne_nil c gap)
    have hreceives : Receives false (some v) := .inr ⟨rfl, v, rfl, hmode⟩
    have hc : Text.isBlank c = true := hgap c List.mem_cons_self
    simp only [advance, hreceives.step, stepPlain_of_isBlank hc, Option.map_some]
    have hrest := @ih (pos + 1) (v.skip c) (fun d hd => hgap d (List.mem_cons_of_mem _ hd))
      fun _ => hmode
    rw [hrest]
    simp [OpenToken.skip]

/-- A character that joins an open token. -/
theorem push {mode : Mode} (h : Faithful b u (c :: rest))
    (hstep : ∀ pos v next, v.mode = u.mode → (next = some '/' ↔ rest.head? = some '/') →
      step pos (some v) c next = ([], some (v.push mode c)))
    (hcomment : mode ≠ .plain → mode ≠ .parenthesis → u.mode ≠ .plain ∧ u.mode ≠ .parenthesis)
    (hedge : mode = .plain → c = '/' → rest.head? ≠ some '/') :
    Faithful b (u.push mode c) rest where
  gap := fun _ hc => absurd hc List.not_mem_nil
  plain hgap := absurd rfl hgap
  comment hmode hmode' := by
    obtain ⟨hplain, hparenthesis⟩ := hcomment hmode hmode'
    obtain ⟨hstray, hlast⟩ := h.comment hplain hparenthesis
    refine ⟨hstray, ?_⟩
    simp [OpenToken.push, List.getLast?_cons, hlast]
  edge hmode htext := hedge hmode (Option.some.inj htext)
  again pos t next ht hnext := by
    have hslice : (u.push mode c).raw.reverse = u.raw.reverse ++ (u.gap.reverse ++ [c]) := by
      simp [OpenToken.push]
    -- the character ahead is the same whether or not the gap comes before it
    have hahead : ((u.gap.reverse ++ [c]).head?.or next = some '/' ↔
        (u.gap.reverse ++ c :: rest).head? = some '/') := by
      cases u.gap.reverse <;> simp
    have hgap (p : Nat) (n : Option Char) :
        advance p (some ⟨pos, u.mode, u.text, u.raw, []⟩) n u.gap.reverse =
          ([], some ⟨pos, u.mode, u.text, u.raw, u.gap⟩) := by
      rw [advance_gap (by simpa using h.gap) (by simpa using h.plain)]
      simp
    rw [hslice, advance_append, h.again pos t _ ht hahead, advance_append, hgap]
    simp only [advance_singleton]
    rw [hstep _ ⟨pos, u.mode, u.text, u.raw, u.gap⟩ next rfl hnext]
    simp [OpenToken.push]

end Faithful

/-! ## The tokens of a score -/

/-- Tokens each of which can start where the ones before it leave off: at first where no token is
open, or, unless the token is stray, after one that is. -/
inductive Readable : Bool → List Token → Prop
  | nil {fresh : Bool} : Readable fresh []
  /-- A comment that is closed. -/
  | closed {fresh : Bool} {token : Token} {ts : List Token}
      (hslash : token.text.head? = some '/')
      (hread : ∀ pos t next, Receives false t → advance pos t next token.raw =
        (flush t ++ [⟨token.text, token.raw, pos, pos + token.raw.length⟩], none))
      (hrest : Readable true ts) : Readable fresh (token :: ts)
  /-- A token that the next one finishes. -/
  | plain {fresh stray : Bool} {token : Token} {ts : List Token} (hfresh : stray = true → fresh = true)
      (hread : token.text.getLast? = some '/' → ∀ pos t next, Receives stray t → next ≠ some '/' →
        advance pos t next token.raw =
          (flush t, some ⟨pos, .plain, token.text.reverse, token.raw.reverse, []⟩))
      (hrest : Readable false ts) : Readable fresh (token :: ts)
  /-- A token that the end of the score finishes. -/
  | last {fresh stray : Bool} {token : Token} (mode : Mode) (hfresh : stray = true → fresh = true)
      (hread : ∀ pos t next, Receives stray t → next ≠ some '/' → advance pos t next token.raw =
          (flush t, some ⟨pos, mode, token.text.reverse, token.raw.reverse, []⟩)) :
      Readable fresh [token]

/-- A token that the next one finishes is read again from its slice. -/
theorem Faithful.plain_of_flush {fresh : Bool} (h : Faithful b u rest) (hmode : u.mode = .plain)
    (hfresh : b = true → fresh = true) (hrest : Readable false ts) :
    Readable fresh (u.close :: ts) := by
  refine .plain hfresh (fun hlast pos t next ht hnext => ?_) hrest
  have htext : u.text.head? = some '/' := by simpa [OpenToken.close] using hlast
  have hread := h.again pos t next ht
    ⟨fun heq => absurd heq hnext, fun heq => absurd heq (h.edge hmode htext)⟩
  rw [hmode] at hread
  simpa [OpenToken.close] using hread

/-- A token that the end of the score finishes is read again from its slice. -/
theorem Faithful.last_of_flush {fresh : Bool} (h : Faithful b u [])
    (hfresh : b = true → fresh = true) : Readable fresh [u.close] := by
  refine .last u.mode hfresh fun pos t next ht hnext => ?_
  have hend : (u.gap.reverse ++ []).head? ≠ some '/' := by
    intro heq
    rw [List.append_nil, List.head?_reverse] at heq
    exact ne_slash_of_isBlank (h.gap '/' (List.mem_of_getLast? heq)) rfl
  have hread := h.again pos t next ht ⟨fun heq => absurd heq hnext, fun heq => absurd heq hend⟩
  simpa [OpenToken.close] using hread

/-- A comment that is closed is read again from its slice. -/
theorem Faithful.closed_of_closing {fresh : Bool} (h : Faithful b u (c :: rest))
    (hmode : u.mode = .closing) (hrest : Readable true ts) :
    Readable fresh ((u.push .plain c).close :: ts) := by
  obtain ⟨rfl, hslash⟩ := h.comment (by simp [hmode]) (by simp [hmode])
  have hgap : u.gap = [] := by
    by_contra hne
    have hplain := h.plain hne
    rw [hmode] at hplain
    cases hplain
  refine .closed ?_ (fun pos t next ht => ?_) hrest
  · simp [OpenToken.close, OpenToken.push, hslash]
  · have hslice : (u.push .plain c).close.raw = u.raw.reverse ++ [c] := by
      simp [OpenToken.close, OpenToken.push, hgap]
    have hread := h.again pos t (some c) ht (by simp [hgap])
    rw [hslice, advance_append]
    simp only [List.head?_cons, Option.some_or, hread, hmode]
    simp [advance, step, OpenToken.close, OpenToken.push, hgap]

/-- The tokens that are read from the rest of a score are readable, whatever token is open. -/
structure IsReread (pos : Nat) (cs : List Char) : Prop where
  outside : Readable true (scan pos none cs)
  within : ∀ {b fresh u}, Faithful b u cs → (b = true → fresh = true) → Readable fresh (scan pos (some u) cs)

namespace IsReread

theorem nil (pos : Nat) : IsReread pos [] := ⟨.nil, fun h hfresh => h.last_of_flush hfresh⟩

variable (hrest : IsReread (pos + 1) rest)
include hrest

theorem cons_outside (c : Char) : Readable true (scan pos none (c :: rest)) := by
  refine scan_cons_of_receives (.inl rfl) ?_ ?_ (fun _ => hrest.outside) ?_
  · rintro rfl hhead
    exact hrest.within (.opening hhead) nofun
  · exact fun hstarter => hrest.within (.starter hstarter) nofun
  · exact fun hslash hstarter hblank => hrest.within (.stray hslash hstarter hblank) fun _ => rfl

/-- Outside parentheses and comments the open token is finished by whatever begins another one. -/
theorem cons_plain {fresh : Bool} (h : Faithful b u (c :: rest)) (hmode : u.mode = .plain)
    (hfresh : b = true → fresh = true) : Readable fresh (scan pos (some u) (c :: rest)) := by
  refine scan_cons_of_receives (.inr ⟨rfl, u, rfl, hmode⟩) ?_ ?_ ?_ fun hslash hstarter hblank => ?_
  · rintro rfl hhead
    exact h.plain_of_flush hmode hfresh (hrest.within (.opening hhead) nofun)
  · exact fun hstarter => h.plain_of_flush hmode hfresh (hrest.within (.starter hstarter) nofun)
  · exact fun hblank => hrest.within (h.skip hmode hblank) hfresh
  · refine hrest.within (h.push (fun pos v next hv hnext => ?_) ?_ ?_) hfresh
    · have hv : Receives false (some v) := .inr ⟨rfl, v, rfl, hv.trans hmode⟩
      rw [hv.step, stepPlain_of_not (fun hand => hslash ⟨hand.1, hnext.mp hand.2⟩) hstarter hblank]
    · rw [modeAfter]
      split <;> simp
    · exact fun _ heq hhead => hslash ⟨heq, hhead⟩

/-- In parentheses and comments every character joins the open token. -/
theorem cons_within {fresh : Bool} (h : Faithful b u (c :: rest)) (hfresh : b = true → fresh = true) :
    Readable fresh (scan pos (some u) (c :: rest)) := by
  cases hmode : u.mode with
  | plain => exact hrest.cons_plain h hmode hfresh
  | parenthesis =>
    simp only [scan, step, hmode]
    refine hrest.within (h.push (fun pos v next hv _ => ?_) ?_ ?_) hfresh
    · simp only [step, hv, hmode]
    · split <;> simp
    · intro hplain heq
      subst heq
      simp at hplain
  | opening =>
    simp only [scan, step, hmode]
    refine hrest.within (h.push (fun pos v next hv _ => ?_) ?_ (by simp)) hfresh
    · simp only [step, hv, hmode]
    · simp [hmode]
  | comment =>
    simp only [scan, step, hmode]
    refine hrest.within (h.push (fun pos v next hv hnext => ?_) ?_ ?_) hfresh
    · simp only [step, hv, hmode, hnext]
    · simp [hmode]
    · split <;> simp
  -- a comment that is closed is a token, and what comes after stands outside
  | closing =>
    simp only [scan, step, hmode]
    exact h.closed_of_closing hmode hrest.outside

end IsReread

theorem isReread (pos : Nat) (cs : List Char) : IsReread pos cs := by
  induction cs generalizing pos with
  | nil => exact .nil pos
  | cons c rest ih => exact ⟨(ih (pos + 1)).cons_outside c, (ih (pos + 1)).cons_within⟩

theorem readable_tokens (text : List Char) : Readable true (tokens text) :=
  (isReread 0 text).outside

/-! ## Tokens joined with spaces -/

/-- How a token is spelled, wherever it stands: the characters that count, and the slice. -/
def Token.spelling (token : Token) : List Char × List Char := (token.text, token.raw)

/-- The characters are read as one token outside parentheses and comments. -/
def IsPlainText (w : List Char) : Prop :=
  ∀ pos t next, Receives false t →
    advance pos t next w = (flush t, some ⟨pos, .plain, w.reverse, w.reverse, []⟩)

/-- What may stand for a token: the slice of a comment, and other characters for any other token
that starts with no slash. -/
def IsWritten (token : Token) (w : List Char) : Prop :=
  (isCommentText token.text = true ∧ w = token.raw) ∨
    isCommentText token.text = false ∧ token.text.head? ≠ some '/' ∧ IsPlainText w

/-- What is read from the characters that stand for a token. -/
def spellingWritten (token : Token) (w : List Char) : List Char × List Char :=
  if isCommentText token.text then token.spelling else (w, w)

theorem spelling_of_comment {token new : Token} {w : List Char} (hcomment : isCommentText token.text = true)
    (hnew : new.spelling = spellingWritten token w) : new.text = token.text ∧ new.raw = token.raw :=
  Prod.mk.inj (hnew.trans (if_pos hcomment))

theorem text_of_not_comment {token new : Token} {w : List Char} (hcomment : isCommentText token.text = false)
    (hnew : new.spelling = spellingWritten token w) : new.text = w :=
  congrArg Prod.fst (hnew.trans (if_neg (by simp [hcomment])))

theorem getLast?_of_isCommentText (h : isCommentText cs) : cs.getLast? = some '/' := by
  simp only [isCommentText, Bool.and_eq_true, beq_iff_eq] at h
  have hlast : (cs.take (cs.length - 2) ++ ['/', '/']).getLast? = some '/' := by simp
  rwa [← h.2, List.take_append_drop] at hlast

/-- What stands after a token: nothing, or a space and the other tokens. -/
def joinRest : List (List Char) → List Char
  | [] => []
  | ws => ' ' :: joinTokens ws

theorem joinTokens_cons (ws : List (List Char)) : joinTokens (w :: ws) = w ++ joinRest ws := by
  cases ws with
  | nil => simp [joinTokens, joinRest]
  | cons w' ws => simp [joinTokens, joinRest, List.intercalate]

theorem head?_joinRest_ne (ws : List (List Char)) : (joinRest ws).head? ≠ some '/' := by
  cases ws <;> simp [joinRest]

/-- The space after a token makes no difference to it. -/
theorem scan_joinRest {stray : Bool} (ht : Receives stray t) (ws : List (List Char)) :
    (scan pos t (joinRest ws)).map Token.spelling =
      (scan (pos + 1) (t.map (·.skip ' ')) (joinTokens ws)).map Token.spelling := by
  cases ws with
  | nil => cases t <;> rfl
  | cons w ws =>
    have hspace : Text.isBlank ' ' = true := by decide
    simp only [joinRest, scan, ht.step, stepPlain_of_isBlank hspace]
    rfl

theorem spelling_flush_skip (t : Option OpenToken) :
    (flush (t.map (·.skip ' '))).map Token.spelling = (flush t).map Token.spelling := by
  cases t <;> rfl

theorem Receives.skip (h : Receives b t) : Receives b (t.map (·.skip ' ')) := by
  rcases h with rfl | ⟨hb, u, rfl, hmode⟩
  · exact .inl rfl
  · exact .inr ⟨hb, u.skip ' ', rfl, hmode⟩

theorem Receives.of_plain (hmode : u.mode = .plain) : Receives false (some u) :=
  .inr ⟨rfl, u, rfl, hmode⟩

/-- A token that can start at first where no token is open can start wherever it is received. -/
theorem Receives.of_imp {fresh stray : Bool} (h : Receives fresh t) (hfresh : stray = true → fresh = true) :
    Receives stray t := by
  rcases h with rfl | ⟨rfl, hu⟩
  · exact .inl rfl
  · refine .inr ⟨?_, hu⟩
    cases stray with
    | false => rfl
    | true => exact Bool.noConfusion (hfresh rfl)

/-- A token that is read, and what is found in the characters that stand for the others. -/
theorem spelling_scan_cons {stray : Bool} {ws : List (List Char)} {t' : Option OpenToken} {done : List Token}
    (hread : advance pos t (joinRest ws).head? w = (done, t')) (ht' : Receives stray t')
    (hrest : ∀ {pos t}, Receives stray t → (scan pos t (joinTokens ws)).map Token.spelling =
      (flush t).map Token.spelling ++ List.zipWith spellingWritten ts ws) :
    (scan pos t (joinTokens (w :: ws))).map Token.spelling =
      done.map Token.spelling ++ (flush t').map Token.spelling ++ List.zipWith spellingWritten ts ws := by
  rw [joinTokens_cons, scan_append, hread, List.map_append, scan_joinRest ht', hrest ht'.skip,
    spelling_flush_skip, List.append_assoc]

/-- Readable tokens are found again in what stands for them, joined with spaces. -/
theorem spelling_scan_joinTokens {fresh : Bool} (h : Readable fresh ts) {ws : List (List Char)}
    (hws : List.Forall₂ IsWritten ts ws) : ∀ {pos t}, Receives fresh t →
      (scan pos t (joinTokens ws)).map Token.spelling =
        (flush t).map Token.spelling ++ List.zipWith spellingWritten ts ws := by
  -- a comment stays as it is and is read again; anything else is written anew and read from there
  induction h generalizing ws with
  | nil =>
    cases hws
    intro pos t _
    simp [joinTokens, List.intercalate, scan]
  | @closed fresh token ts hslash hread hrest ih =>
    cases hws with
    | @cons _ w _ ws hw hws =>
      intro pos t ht
      rcases hw with ⟨hcomment, rfl⟩ | ⟨-, hne, -⟩
      · have hreceived : Receives false t := ht.of_imp (by simp)
        rw [spelling_scan_cons (hread pos t _ hreceived) (.inl rfl) (ih hws)]
        simp [spellingWritten, hcomment, flush, Token.spelling]
      · exact absurd hslash hne
  | @plain fresh stray token ts hfresh hread hrest ih =>
    cases hws with
    | @cons _ w _ ws hw hws =>
      intro pos t ht
      rcases hw with ⟨hcomment, rfl⟩ | ⟨hcomment, -, hplain⟩
      · have hlast := getLast?_of_isCommentText hcomment
        rw [spelling_scan_cons (hread hlast pos t _ (ht.of_imp hfresh) (head?_joinRest_ne ws)) (.of_plain rfl)
          (ih hws)]
        simp [spellingWritten, hcomment, flush, Token.spelling, OpenToken.close]
      · rw [spelling_scan_cons (hplain pos t _ (ht.of_imp (by simp))) (.of_plain rfl) (ih hws)]
        simp [spellingWritten, hcomment, flush, Token.spelling, OpenToken.close]
  | @last fresh stray token mode hfresh hread =>
    cases hws with
    | @cons _ w _ ws hw hws =>
      cases hws
      intro pos t ht
      have hjoin : joinTokens [w] = w ++ [] := joinTokens_cons []
      rcases hw with ⟨hcomment, rfl⟩ | ⟨hcomment, -, hplain⟩
      · rw [hjoin, scan_append, hread pos t _ (ht.of_imp hfresh) (by simp)]
        simp [spellingWritten, hcomment, scan, flush, Token.spelling, OpenToken.close]
      · rw [hjoin, scan_append, hplain pos t _ (ht.of_imp (by simp))]
        simp [spellingWritten, hcomment, scan, flush, Token.spelling, OpenToken.close]

end Monody.Melody
