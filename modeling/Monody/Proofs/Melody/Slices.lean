import Mathlib.Data.List.Chain
import Monody.Proofs.Melody.Tokens

/-!
# A score is its tokens

Nothing of a score is lost when it is read: its tokens are slices of it that follow one another, and
what stands between them is white space. A token starts where a starter or two slashes stand; a stray
token, which starts with something else, is the first of a score or follows a closed comment. Of its
slice a token keeps all characters but the white space outside comments and parentheses.

## Main definitions

* `compact` — the characters of a slice that count
* `Begins` — how the slice of a token begins
* `Covers` — tokens that a score is made of
* `IsTiled` — what is left of a score is made of its tokens

## Main results

* `isTiled` — what is left of a score is made of the tokens that are read from it
* `covers_tokens` — a score is made of its tokens
-/

namespace Monody.Melody

/-! ## Slices -/

/-- The two slashes at either end of a comment. -/
def slashes : List Char := ['/', '/']

/-- Characters without the white space that is not in parentheses, the first of them being in
parentheses or not. -/
def compactFrom (inside : Bool) : List Char → List Char
  | [] => []
  | c :: cs =>
    if inside then c :: compactFrom (c ≠ ')') cs
    else if Text.isBlank c then compactFrom false cs
    else c :: compactFrom (c = '(') cs

/-- The characters of a slice that count: all those of a comment, and those of anything else without
the white space outside parentheses. -/
def compact (cs : List Char) : List Char :=
  if slashes <+: cs then cs else compactFrom false cs

/-- How the slice of a token begins: with a starter or with two slashes, or, where no token can be
open, with anything but white space. -/
inductive Begins (fresh : Bool) : List Char → Prop
  | starter {c : Char} {cs : List Char} (h : isStarter c = true) : Begins fresh (c :: cs)
  | comment {cs : List Char} : Begins fresh (slashes ++ cs)
  | stray {c : Char} {cs : List Char} (hfresh : fresh = true) (h : Text.isBlank c = false) :
      Begins fresh (c :: cs)

variable {fresh : Bool} {pos : ℕ} {c : Char} {cs rest gap : List Char} {ts : List Token} {u : OpenToken}

theorem Begins.ne_nil (h : Begins fresh cs) : cs ≠ [] := by
  cases h <;> exact List.cons_ne_nil _ _

/-- What follows makes no difference to how a slice begins. -/
theorem Begins.append (h : Begins fresh cs) (ds : List Char) : Begins fresh (cs ++ ds) := by
  cases h with
  | starter h => exact .starter h
  | comment => exact .comment
  | stray hfresh h => exact .stray hfresh h

/-- A score is made of tokens: they are slices of it, one after the other, with white space around
them. -/
structure Covers (text : List Char) (ts : List Token) : Prop where
  /-- Every token is a slice that is not empty. -/
  slice : ∀ token ∈ ts, token.start < token.stop ∧ token.stop ≤ text.length ∧
    token.raw = text.extract token.start token.stop
  /-- No token starts before those in front of it have ended. -/
  ordered : ts.Pairwise (·.stop ≤ ·.start)
  /-- What is in no token is white space. -/
  outside : ∀ i c, text[i]? = some c → (∀ token ∈ ts, ¬ (token.start ≤ i ∧ i < token.stop)) →
    Text.isBlank c = true
  /-- The first token may be a stray one. -/
  first : ∀ token ∈ ts.head?, Begins true token.raw
  /-- Any other token is a stray one only after a comment that is closed. -/
  later : ts.IsChain fun token token' => Begins (isCommentText token.raw) token'.raw
  /-- What counts in a token is what counts in its slice. -/
  text : ∀ token ∈ ts, token.text = compact token.raw

/-! ## From an offset on -/

/-- The rest of a score from an offset on, as white space and tokens in turn. -/
inductive Tiles : Bool → ℕ → List Char → List Token → Prop
  | blank {fresh : Bool} {pos : ℕ} {gap : List Char} (hgap : ∀ c ∈ gap, Text.isBlank c = true) :
      Tiles fresh pos gap []
  | token {fresh : Bool} {pos : ℕ} {gap rest : List Char} {token : Token} {ts : List Token}
      (hgap : ∀ c ∈ gap, Text.isBlank c = true) (hstart : token.start = pos + gap.length)
      (hstop : token.stop = token.start + token.raw.length) (hbegins : Begins fresh token.raw)
      (htext : token.text = compact token.raw)
      (hrest : Tiles (isCommentText token.raw) token.stop rest ts) :
      Tiles fresh pos (gap ++ (token.raw ++ rest)) (token :: ts)

namespace Tiles

/-- White space in front makes no difference but for the offset. -/
theorem skip (h : Tiles fresh (pos + gap.length) cs ts) (hgap : ∀ c ∈ gap, Text.isBlank c = true) :
    Tiles fresh pos (gap ++ cs) ts := by
  cases h with
  | blank hcs =>
    refine .blank fun c hc => ?_
    exact (List.mem_append.mp hc).elim (hgap c) (hcs c)
  | token hgap' hstart hstop hbegins htext hrest =>
    rw [← List.append_assoc]
    refine .token (fun c hc => ?_) ?_ hstop hbegins htext hrest
    · exact (List.mem_append.mp hc).elim (hgap c) (hgap' c)
    · rw [hstart, List.length_append, Nat.add_assoc]

/-- Where a token stands in what is left of a score. -/
theorem exists_append (h : Tiles fresh pos cs ts) : ∀ token ∈ ts, ∃ before after,
    cs = before ++ (token.raw ++ after) ∧ token.start = pos + before.length ∧
      token.stop = token.start + token.raw.length ∧ token.raw ≠ [] := by
  induction h with
  | blank => exact fun token htoken => absurd htoken List.not_mem_nil
  | @token fresh pos gap rest token ts _ hstart hstop hbegins _ _ ih =>
    refine List.forall_mem_cons.mpr ⟨⟨gap, rest, rfl, hstart, hstop, hbegins.ne_nil⟩, fun t ht => ?_⟩
    obtain ⟨before, after, hcs, hstart', hstop', hne⟩ := ih t ht
    refine ⟨gap ++ (token.raw ++ before), after, ?_, ?_, hstop', hne⟩
    · simp only [hcs, List.append_assoc]
    · rw [hstart', hstop, hstart, List.length_append, List.length_append]
      omega

theorem ordered (h : Tiles fresh pos cs ts) : ts.Pairwise (·.stop ≤ ·.start) := by
  induction h with
  | blank => exact .nil
  | @token _ _ _ _ token ts _ _ _ _ _ hrest ih =>
    refine List.pairwise_cons.mpr ⟨fun t ht => ?_, ih⟩
    obtain ⟨before, -, -, hstart, -⟩ := hrest.exists_append t ht
    omega

theorem outside (h : Tiles fresh pos cs ts) : ∀ i c, cs[i]? = some c →
    (∀ token ∈ ts, ¬ (token.start ≤ pos + i ∧ pos + i < token.stop)) → Text.isBlank c = true := by
  induction h with
  | blank hgap => exact fun i c hc _ => hgap c (List.mem_of_getElem? hc)
  | @token fresh pos gap rest token ts hgap hstart hstop _ _ _ ih =>
    intro i c hc hout
    obtain ⟨hself, hothers⟩ := List.forall_mem_cons.mp hout
    rcases Nat.lt_or_ge i gap.length with hi | hi
    · rw [List.getElem?_append_left hi] at hc
      exact hgap c (List.mem_of_getElem? hc)
    · rw [List.getElem?_append_right hi] at hc
      -- the offset is not in the token, and so it is after it
      have hafter : token.raw.length ≤ i - gap.length := by omega
      rw [List.getElem?_append_right hafter] at hc
      have hpos : token.stop + (i - gap.length - token.raw.length) = pos + i := by omega
      refine ih _ c hc fun t ht => ?_
      rw [hpos]
      exact hothers t ht

theorem first (h : Tiles fresh pos cs ts) : ∀ token ∈ ts.head?, Begins fresh token.raw := by
  cases h with
  | blank => exact fun token htoken => absurd htoken (by simp)
  | token _ _ _ hbegins => exact fun t ht => Option.some.inj ht ▸ hbegins

theorem later (h : Tiles fresh pos cs ts) :
    ts.IsChain fun token token' => Begins (isCommentText token.raw) token'.raw := by
  induction h with
  | blank => exact .nil
  | token _ _ _ _ _ hrest ih => exact List.isChain_cons.mpr ⟨hrest.first, ih⟩

theorem text (h : Tiles fresh pos cs ts) : ∀ token ∈ ts, token.text = compact token.raw := by
  induction h with
  | blank => exact fun token htoken => absurd htoken List.not_mem_nil
  | token _ _ _ _ htext _ ih => exact List.forall_mem_cons.mpr ⟨htext, ih⟩

/-- A whole score is made of its tokens. -/
theorem covers (h : Tiles true 0 cs ts) : Covers cs ts where
  slice token htoken := by
    obtain ⟨before, after, rfl, hstart, hstop, hne⟩ := h.exists_append token htoken
    have hlength := List.length_pos_iff.mpr hne
    refine ⟨by omega, ?_, ?_⟩
    · simp only [List.length_append]
      omega
    · have hbefore : token.start = before.length := by omega
      have hslice : token.stop - token.start = token.raw.length := by omega
      rw [List.extract_eq_take_drop, hslice, hbefore, List.drop_left, List.take_left]
  ordered := h.ordered
  outside i c hc hout := h.outside i c hc (by simpa using hout)
  first := h.first
  later := h.later
  text := h.text

end Tiles

/-! ## The token that is open -/

theorem compactFrom_blank_append (hgap : ∀ c ∈ gap, Text.isBlank c = true) :
    compactFrom false (gap ++ cs) = compactFrom false cs := by
  induction gap with
  | nil => rfl
  | cons c gap ih =>
    obtain ⟨hc, hgap⟩ := List.forall_mem_cons.mp hgap
    rw [List.cons_append, compactFrom, if_neg Bool.false_ne_true, if_pos hc, ih hgap]

/-- Whether what follows is in parentheses. -/
def Mode.isInside : Mode → Bool
  | .parenthesis => true
  | _ => false

theorem compactFrom_of_not_blank (hblank : ¬ Text.isBlank c = true) :
    compactFrom false (c :: cs) = c :: compactFrom (modeAfter c).isInside cs := by
  rw [compactFrom, if_neg Bool.false_ne_true, if_neg hblank, modeAfter]
  split
  · next hopen => exact congrArg (c :: compactFrom · cs) (decide_eq_true hopen)
  · next hopen => exact congrArg (c :: compactFrom · cs) (decide_eq_false hopen)

/-- A token that is open is a slice of what has been read, with what counts in it. The rest of the
score tells whether the slash that has just been read is the first of two. -/
inductive IsSlice (fresh : Bool) (rest : List Char) : OpenToken → Prop
  /-- Outside comments, whatever follows is kept or left out as the mode says. -/
  | word {u : OpenToken} (hmode : u.mode = .plain ∨ u.mode = .parenthesis)
      (hgap : ∀ c ∈ u.gap, Text.isBlank c = true) (hplain : u.gap ≠ [] → u.mode = .plain)
      (hbegins : Begins fresh u.raw.reverse)
      (hslashes : ¬ slashes <+: u.raw.reverse ++ (u.gap.reverse ++ rest))
      (htext : ∀ more, compactFrom false (u.raw.reverse ++ more) =
        u.text.reverse ++ compactFrom u.mode.isInside more) :
      IsSlice fresh rest u
  | opening {start : ℕ} (hnext : rest.head? = some '/') : IsSlice fresh rest (.first start .opening '/')
  | comment {start : ℕ} {body : List Char} :
      IsSlice fresh rest ⟨start, .comment, body ++ slashes, body ++ slashes, []⟩
  | closing {start : ℕ} {body : List Char} (hnext : rest.head? = some '/') :
      IsSlice fresh rest ⟨start, .closing, '/' :: (body ++ slashes), '/' :: (body ++ slashes), []⟩

theorem modeAfter_eq (c : Char) : modeAfter c = .plain ∨ modeAfter c = .parenthesis := by
  rw [modeAfter]
  split
  · exact .inr rfl
  · exact .inl rfl

namespace IsSlice

theorem starter (h : isStarter c = true) : IsSlice fresh rest (.first pos .plain c) := by
  have hblank : ¬ Text.isBlank c = true := fun hblank => by
    simp [not_isStarter_of_isBlank hblank] at h
  have hmode : modeAfter c = .plain := by
    refine if_neg ?_
    rintro rfl
    exact absurd h (by decide)
  refine .word (.inl rfl) nofun (absurd rfl) (.starter h) ?_ fun more => ?_
  · intro hbegin
    obtain rfl : '/' = c := (List.cons_prefix_cons.mp hbegin).1
    exact absurd h (by decide)
  · exact (compactFrom_of_not_blank hblank).trans (by rw [hmode]; rfl)

theorem stray (hslash : ¬ (c = '/' ∧ rest.head? = some '/')) (hblank : ¬ Text.isBlank c = true) :
    IsSlice true rest (.first pos (modeAfter c) c) := by
  refine .word (modeAfter_eq c) nofun (absurd rfl) (.stray rfl (by simpa using hblank)) ?_ fun more =>
    compactFrom_of_not_blank hblank
  rintro ⟨after, hafter⟩
  obtain ⟨hc, hrest⟩ := List.cons.inj hafter
  have hhead : (slashes.tail ++ after).head? = rest.head? := congrArg List.head? hrest
  exact hslash ⟨hc.symm, hhead.symm⟩

theorem isBlank_gap (h : IsSlice fresh rest u) : ∀ c ∈ u.gap, Text.isBlank c = true := by
  cases h with
  | word _ hgap => exact hgap
  | opening | comment | closing => exact nofun

/-- White space is passed over only outside parentheses and comments. -/
theorem gap_eq_nil (h : IsSlice fresh rest u) (hmode : u.mode ≠ .plain) : u.gap = [] := by
  cases h with
  | word _ _ hplain => exact by_contra fun hne => hmode (hplain hne)
  | opening | comment | closing => rfl

/-- White space after an open token is left out. -/
theorem skip (h : IsSlice fresh (c :: rest) u) (hmode : u.mode = .plain)
    (hblank : Text.isBlank c = true) : IsSlice fresh rest (u.skip c) := by
  cases h with
  | word _ hgap _ hbegins hslashes htext =>
    refine .word (.inl hmode) (List.forall_mem_cons.mpr ⟨hblank, hgap⟩) (fun _ => hmode) hbegins ?_ htext
    simpa [OpenToken.skip] using hslashes
  | opening | comment | closing => cases hmode

/-- A character that joins an open token outside comments. -/
theorem push {mode : Mode} (h : IsSlice fresh (c :: rest) u)
    (hword : u.mode = .plain ∨ u.mode = .parenthesis) (hmode : mode = .plain ∨ mode = .parenthesis)
    (hstep : ∀ more, compactFrom u.mode.isInside (u.gap.reverse ++ c :: more) =
      c :: compactFrom mode.isInside more) : IsSlice fresh rest (u.push mode c) := by
  cases h with
  | word _ hgap hplain hbegins hslashes htext =>
    refine .word hmode nofun (absurd rfl) ?_ ?_ fun more => ?_
    · rw [OpenToken.push, List.reverse_cons, List.reverse_append]
      exact (hbegins.append _).append _
    · simpa [OpenToken.push] using hslashes
    · simp [OpenToken.push, htext, hstep]
  | opening | comment | closing => rcases hword with hmode | hmode <;> cases hmode

/-- The second of two slashes. -/
theorem push_opening (h : IsSlice fresh (c :: rest) u) (hmode : u.mode = .opening) :
    IsSlice fresh rest (u.push .comment c) := by
  cases h with
  | word hword => rcases hword with hword | hword <;> cases hmode.symm.trans hword
  | opening hnext =>
    obtain rfl : c = '/' := Option.some.inj hnext
    exact @IsSlice.comment fresh rest _ []
  | comment | closing => cases hmode

/-- A character of a comment, which may be the first of two slashes. -/
theorem push_comment (h : IsSlice fresh (c :: rest) u) (hmode : u.mode = .comment) :
    IsSlice fresh rest (u.push (if c = '/' ∧ rest.head? = some '/' then .closing else .comment) c) := by
  cases h with
  | word hword => rcases hword with hword | hword <;> cases hmode.symm.trans hword
  | opening | closing => cases hmode
  | @comment start body =>
    split
    · next hslash =>
      obtain ⟨rfl, hhead⟩ := hslash
      exact .closing hhead
    · exact @IsSlice.comment fresh rest start (c :: body)

end IsSlice

theorem isCommentText_slashes (body : List Char) :
    isCommentText (slashes ++ (body ++ slashes)) = true := by
  have hdrop : (slashes ++ (body ++ slashes)).drop ((slashes ++ (body ++ slashes)).length - 2) = slashes := by
    rw [← List.append_assoc]
    exact List.drop_left' (by simp [slashes])
  rw [isCommentText, hdrop]
  simp [slashes]

theorem compact_comment (cs : List Char) : compact (slashes ++ cs) = slashes ++ cs :=
  if_pos (List.prefix_append ..)

/-- A token that is finished, with the white space after it. -/
theorem Tiles.close (hbegins : Begins fresh u.raw.reverse) (htext : u.text.reverse = compact u.raw.reverse)
    (hgap : ∀ c ∈ u.gap, Text.isBlank c = true)
    (hrest : Tiles (isCommentText u.raw.reverse) (u.start + u.raw.length + u.gap.length) rest ts) :
    Tiles fresh u.start (u.raw.reverse ++ (u.gap.reverse ++ rest)) (u.close :: ts) := by
  have hstop : u.close.stop = u.close.start + u.close.raw.length := by simp [OpenToken.close]
  have hafter : Tiles (isCommentText u.raw.reverse) u.close.stop (u.gap.reverse ++ rest) ts := by
    refine Tiles.skip ?_ fun c hc => hgap c (List.mem_reverse.mp hc)
    simpa [OpenToken.close] using hrest
  have htile := Tiles.token (List.forall_mem_nil _) rfl hstop hbegins htext hafter
  exact htile

/-- A token outside comments is finished with all that counts in its slice. -/
theorem IsSlice.close (h : IsSlice fresh rest u) (hmode : u.mode = .plain ∨ rest = [])
    (hpos : pos = u.start + u.raw.length + u.gap.length) (hrest : ∀ fresh, Tiles fresh pos rest ts) :
    Tiles fresh u.start (u.raw.reverse ++ (u.gap.reverse ++ rest)) (u.close :: ts) := by
  cases h with
  | word _ hgap _ hbegins hslashes htext =>
    have hne : ¬ slashes <+: u.raw.reverse :=
      fun hbegin => hslashes (hbegin.trans (List.prefix_append ..))
    refine .close hbegins ?_ hgap (hpos ▸ hrest _)
    have hall := htext []
    simp only [List.append_nil, compactFrom] at hall
    rw [compact, if_neg hne, hall]
  | comment =>
    refine .close ?_ ?_ nofun (hpos ▸ hrest _)
    · simpa [slashes] using Begins.comment
    · simpa [slashes] using (compact_comment _).symm
  | opening hnext | closing hnext =>
    rcases hmode with hmode | rfl
    · cases hmode
    · cases hnext

/-- A comment is finished with its second pair of slashes. -/
theorem IsSlice.closed (h : IsSlice fresh (c :: rest) u) (hmode : u.mode = .closing)
    (hrest : Tiles true ((u.push .plain c).start + (u.push .plain c).raw.length +
      (u.push .plain c).gap.length) rest ts) :
    Tiles fresh (u.push .plain c).start
      ((u.push .plain c).raw.reverse ++ ((u.push .plain c).gap.reverse ++ rest))
      ((u.push .plain c).close :: ts) := by
  cases h with
  | word hword => rcases hword with hword | hword <;> cases hmode.symm.trans hword
  | opening | comment => cases hmode
  | @closing start body hnext =>
    obtain rfl : c = '/' := Option.some.inj hnext
    have hslice : ('/' :: '/' :: (body ++ slashes)).reverse = slashes ++ (body.reverse ++ slashes) := by
      simp [slashes]
    refine .close ?_ ?_ nofun ?_
    · exact hslice ▸ Begins.comment
    · exact hslice ▸ (compact_comment _).symm
    · exact (congrArg isCommentText hslice).trans (isCommentText_slashes _) ▸ hrest

/-- What is left of a score at an offset is made of the tokens that are read from it, the first of which
has been open since an earlier offset if one is open. -/
structure IsTiled (pos : ℕ) (cs : List Char) : Prop where
  outside : Tiles true pos cs (scan pos none cs)
  within : ∀ {fresh u}, IsSlice fresh cs u → pos = u.start + u.raw.length + u.gap.length →
    Tiles fresh u.start (u.raw.reverse ++ (u.gap.reverse ++ cs)) (scan pos (some u) cs)

namespace IsTiled

theorem nil (pos : ℕ) : IsTiled pos [] :=
  ⟨.blank nofun, fun h hpos => h.close (.inr rfl) hpos fun _ => .blank nofun⟩

variable (hrest : IsTiled (pos + 1) rest)
include hrest

/-- Where no token is open, a character begins one or is white space between tokens. -/
theorem cons_outside (c : Char) : Tiles true pos (c :: rest) (scan pos none (c :: rest)) := by
  refine scan_cons_of_receives (.inl rfl) ?_ ?_ ?_ ?_
  · rintro rfl hhead
    exact hrest.within (.opening hhead) rfl
  · exact fun hstarter => hrest.within (.starter hstarter) rfl
  · exact fun hblank => hrest.outside.skip (List.forall_mem_singleton.mpr hblank)
  · exact fun hslash _ hblank => hrest.within (.stray hslash hblank) rfl

/-- What joins the open token goes from what is left to its slice. -/
theorem push {mode : Mode} (h : IsSlice fresh rest (u.push mode c))
    (hpos : pos = u.start + u.raw.length + u.gap.length) :
    Tiles fresh u.start (u.raw.reverse ++ (u.gap.reverse ++ c :: rest))
      (scan (pos + 1) (some (u.push mode c)) rest) := by
  have hlength : pos + 1 =
      (u.push mode c).start + (u.push mode c).raw.length + (u.push mode c).gap.length := by
    simp only [OpenToken.push, List.length_cons, List.length_append, List.length_nil]
    omega
  simpa [OpenToken.push] using hrest.within h hlength

/-- Outside parentheses and comments the open token is closed by whatever begins another one. -/
theorem cons_plain (h : IsSlice fresh (c :: rest) u) (hmode : u.mode = .plain)
    (hpos : pos = u.start + u.raw.length + u.gap.length) :
    Tiles fresh u.start (u.raw.reverse ++ (u.gap.reverse ++ c :: rest))
      (scan pos (some u) (c :: rest)) := by
  refine scan_cons_of_receives (.inr ⟨rfl, u, rfl, hmode⟩) ?_ ?_ (fun hblank => ?_) fun _ _ hblank => ?_
  · rintro rfl hhead
    exact h.close (.inl hmode) hpos fun _ => hrest.within (.opening hhead) rfl
  · exact fun hstarter => h.close (.inl hmode) hpos fun _ => hrest.within (.starter hstarter) rfl
  · have hskipped := hrest.within (h.skip hmode hblank)
      (by simp only [OpenToken.skip, List.length_cons]; omega)
    simpa [OpenToken.skip] using hskipped
  · refine hrest.push (h.push (.inl hmode) (modeAfter_eq c) fun more => ?_) hpos
    have houtside : u.mode.isInside = false := congrArg Mode.isInside hmode
    rw [houtside, compactFrom_blank_append, compactFrom_of_not_blank hblank]
    exact fun d hd => h.isBlank_gap d (List.mem_reverse.mp hd)

/-- In a parenthesis every character counts, up to the one that closes it. -/
theorem cons_parenthesis (h : IsSlice fresh (c :: rest) u) (hmode : u.mode = .parenthesis)
    (hpos : pos = u.start + u.raw.length + u.gap.length) :
    Tiles fresh u.start (u.raw.reverse ++ (u.gap.reverse ++ c :: rest))
      (scan pos (some u) (c :: rest)) := by
  simp only [scan, step, hmode]
  refine hrest.push (h.push (.inr hmode) ?_ fun more => ?_) hpos
  · split <;> simp
  · rw [hmode, h.gap_eq_nil (by simp [hmode])]
    by_cases hclose : c = ')' <;> simp [compactFrom, Mode.isInside, hclose]

/-- The second slash of a comment that ends closes it. -/
theorem cons_closing (h : IsSlice fresh (c :: rest) u) (hmode : u.mode = .closing)
    (hpos : pos = u.start + u.raw.length + u.gap.length) :
    Tiles fresh u.start (u.raw.reverse ++ (u.gap.reverse ++ c :: rest))
      (scan pos (some u) (c :: rest)) := by
  have hlength : (u.push .plain c).start + (u.push .plain c).raw.length + (u.push .plain c).gap.length =
      pos + 1 := by
    simp only [OpenToken.push, List.length_cons, List.length_append, List.length_nil]
    omega
  simp only [scan, step, hmode]
  simpa [OpenToken.push] using h.closed hmode (hlength.symm ▸ hrest.outside)

theorem cons (c : Char) : IsTiled pos (c :: rest) where
  outside := hrest.cons_outside c
  within {fresh u} h hpos := by
    cases hmode : u.mode with
    | plain => exact hrest.cons_plain h hmode hpos
    | parenthesis => exact hrest.cons_parenthesis h hmode hpos
    | opening =>
      simp only [scan, step, hmode]
      exact hrest.push (h.push_opening hmode) hpos
    | comment =>
      simp only [scan, step, hmode]
      exact hrest.push (h.push_comment hmode) hpos
    | closing => exact hrest.cons_closing h hmode hpos

end IsTiled

/-- What is left of a score is made of the tokens that are read from it. -/
theorem isTiled (pos : ℕ) (cs : List Char) : IsTiled pos cs := by
  induction cs generalizing pos with
  | nil => exact .nil pos
  | cons c rest ih => exact (ih (pos + 1)).cons c

/-- **A score is made of its tokens.** They are slices of it that are not empty, one after the other,
and what is in none of them is white space. Each begins as a token must, and keeps of its slice all
characters but the white space outside comments and parentheses. -/
theorem covers_tokens (text : List Char) : Covers text (tokens text) :=
  (isTiled 0 text).outside.covers

end Monody.Melody
