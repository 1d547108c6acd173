import Monody.Proofs.Melody.Scale

/-!
# Whole multiples

A score with whole durations is scaled by a whole number without rounding, as long as the products are
held exactly. So scalings by whole numbers compose, and they commute with transpositions: in each case
both ways write the same score.

Factors and shifts that have too many digits to be shown are refused. For the factors this matters only to
scores of comments, which are scaled by two factors but not by their product, if that is not shown.

## Main definitions

* `Event.Multiplied` — an event and what it becomes when its duration is multiplied

## Main results

* `isRewriting_multiple` — the event of one token is multiplied and read back
* `Event.Multiple.scaleEvent`, `Event.Multiple.transposeEvent` — what a multiplied event is written as
* `scale_scale_transpose` — whole scalings compose and commute with transpositions
-/

namespace Monody.Melody

open Binary64

attribute [local irreducible] one bound

variable {a b d k : ℕ} {shift : Int} {multiplier : Number} {x : Binary64} {time : Binary64}
  {e e' e'' : Event} {es : List Event} {token : Token} {text : List Char} {m : Melody}

theorem pos_whole (hk : 0 < k) : (0 : Number) < .whole k :=
  Number.whole_pos (Int.natCast_pos.mpr hk)

/-- An event whose duration is whole and stays exact when it is multiplied. -/
structure Event.IsMultipliable (k : ℕ) (e : Event) : Prop where
  flaw : e.flaw = none
  whole : ∃ d : ℕ, Number.ofReal e.duration = .whole d ∧ d * k ≤ 2 ^ 53

/-- An event and what it becomes when its duration is multiplied. -/
structure Event.Multiplied (k : ℕ) (e e' : Event) : Prop where
  content : e'.content = e.content
  flaw : e'.flaw = none
  raw : e.isComment → e'.raw = e.raw
  duration : ¬ e.isComment → ∃ d : ℕ, Number.ofReal e.duration = .whole d ∧
    Number.ofReal e'.duration = .whole (d * k : ℕ)

/-- The same for an event of a score, which is a pause or a note unless it is a comment. -/
structure Event.Multiple (k : ℕ) (e e' : Event) : Prop extends e.Multiplied k e' where
  timed : ¬ e.isComment → IsTimed e.content

/-! ## Single events -/

theorem isFinite_of_ofReal_whole {z : ℤ} (h : Number.ofReal x = .whole z) : x.isFinite := by
  cases x with
  | finite => rfl
  | nan => cases h
  | infinite => cases h

theorem isTimed_of_eventOf (h : eventOf token time = .ok e) (hflaw : e.flaw = none)
    (hcomment : ¬ e.isComment) : IsTimed e.content := by
  rcases eventOf_cases h hflaw with ⟨-, rfl⟩ | ⟨-, -, content, x, stated, hcontent, -, rfl⟩
  · exact absurd rfl hcomment
  · exact hcontent

/-- A whole duration is scaled to its multiple. -/
theorem scaleDuration_multiple (d k : ℕ) :
    scaleDuration (.whole d) (.whole k) = .ok (d * k : ℕ) := by
  rw [Nat.cast_mul]
  exact scaleDuration_whole rfl

/-- A whole duration that stays exact is held when it is multiplied. -/
theorem Event.IsMultipliable.isHeld (h : e.IsMultipliable k) : e.IsHeld (.whole k) := by
  obtain ⟨d, hd, hle⟩ := h.whole
  intro _
  rw [hd]
  exact ⟨.whole (d * k), d * k, rfl, scaleDuration_multiple d k, id, fits_mul_one hle⟩

theorem Event.IsMultipliable.isScalable (h : e.IsMultipliable k) : e.IsScalable (.whole k) := by
  obtain ⟨d, hd, hle⟩ := h.whole
  refine ⟨⟨h.flaw, isFinite_of_ofReal_whole hd⟩, fun _ => ?_⟩
  rw [hd]
  refine ⟨.whole (d * k : ℕ), ?_, _, Number.realOfInt_of_fits (fits_mul_one hle), rfl⟩
  rw [Nat.cast_mul]
  rfl

/-- The event of a token is multiplied and written, and whatever is read from the characters that
stand for the token has the event that it becomes, at any time. -/
theorem isRewriting_multiple (hk : 0 < k) :
    IsRewriting (scaleEvent (.whole k)) (Event.IsMultipliable k) (fun _ _ => True)
      (Event.Multiple k) := by
  intro token time e h hmultipliable
  obtain ⟨w, hw, hwritten, hread⟩ := isRewriting_scale (pos_whole hk) h hmultipliable.isScalable
  refine ⟨w, hw, hwritten, fun new hnew time' htime => ?_⟩
  obtain ⟨e', he', hscaled, -⟩ := hread new hnew time' htime
  have hs := hscaled.scales_iff.mpr hmultipliable.isHeld
  refine ⟨e', he', ⟨⟨hs.content, hs.flaw, hs.raw, fun hc => ?_⟩,
    isTimed_of_eventOf h hmultipliable.flaw⟩, trivial⟩
  obtain ⟨d, hd, -⟩ := hmultipliable.whole
  obtain ⟨z, hz, -, hduration⟩ := hs.duration hc
  rw [hd, scaleDuration_multiple] at hz
  obtain rfl := Except.ok.inj hz
  exact ⟨d, hd, hduration⟩

theorem writeEvent_congr {content : Content} (hcontent : IsTimed content) (he : e.content = content)
    (he' : e'.content = content) (duration : Number) :
    writeEvent e' duration = writeEvent e duration := by
  cases hcontent <;> simp only [writeEvent, he, he']

theorem writeMoved_congr {content : Content} (hcontent : IsTimed content) (he : e.content = content)
    (he' : e'.content = content) (shift : Int) (duration : Number) :
    writeMoved shift e' duration = writeMoved shift e duration := by
  cases hcontent <;> simp only [writeMoved, writeEvent, he, he']

/-- A comment is written as it is. -/
theorem scaleEvent_comment (h : e.isComment) : scaleEvent multiplier e = .ok e.raw := by
  have hcontent : e.content = .comment := eq_of_beq h
  simp only [scaleEvent, hcontent]
  rfl

theorem writeMoved_comment (h : e.isComment) (duration : Number) :
    writeMoved shift e duration = .ok e.raw := by
  have hcontent : e.content = .comment := eq_of_beq h
  simp only [writeMoved, writeEvent, hcontent]
  rfl

namespace Event.Multiple

theorem isComment (h : e.Multiple k e') : e'.isComment = e.isComment := by
  rw [Event.isComment, Event.isComment, h.content]

/-- A multiplied event is scaled as the event is by the product. -/
theorem scaleEvent (h : e.Multiple a e') (b : ℕ) :
    Melody.scaleEvent (.whole b) e' = Melody.scaleEvent (.whole (a * b : ℕ)) e := by
  by_cases hcomment : e.isComment = true
  · rw [scaleEvent_comment hcomment, scaleEvent_comment (h.isComment.trans hcomment), h.raw hcomment]
  · have htimed := h.timed hcomment
    obtain ⟨d, hd, hd'⟩ := h.duration hcomment
    have hk : scaleDuration (.ofReal e.duration) (.whole (a * b : ℕ)) = .ok (d * a * b : ℕ) := by
      rw [hd, scaleDuration_multiple, Nat.mul_assoc]
    have hk' : scaleDuration (.ofReal e'.duration) (.whole b) = .ok (d * a * b : ℕ) := by
      rw [hd', scaleDuration_multiple]
    rw [scaleEvent_timed htimed rfl hk, scaleEvent_timed htimed h.content hk',
      writeEvent_congr htimed rfl h.content]

/-- A multiplied event is moved as the moved event is multiplied. -/
theorem transposeEvent (h : e.Multiple k e') (hfollows : e.Follows shift e'') :
    Melody.transposeEvent shift e' = Melody.scaleEvent (.whole k) e'' := by
  by_cases hcomment : e.isComment = true
  · have hcomment'' : e''.isComment = true := (isComment_eq_of_kind hfollows.kind).trans hcomment
    rw [transposeEvent_eq, writeMoved_comment (h.isComment.trans hcomment),
      scaleEvent_comment hcomment'', h.raw hcomment, hfollows.raw hcomment]
  · have htimed := h.timed hcomment
    obtain ⟨d, hd, hd'⟩ := h.duration hcomment
    have hk : scaleDuration (.ofReal e''.duration) (.whole k) = .ok (d * k : ℕ) := by
      rw [hfollows.duration, hd, scaleDuration_multiple]
    rw [transposeEvent_eq, hd', writeMoved_congr htimed rfl h.content,
      scaleEvent_timed (hfollows.timed htimed) rfl hk, hfollows.writes]

end Event.Multiple

/-! ## Whole scores -/

/-- A score of whole durations is scaled by a whole number, and what is written is read as it. -/
theorem exists_mapM_scaleEvent (hk : 0 < k) (hparse : parse text = .ok m)
    (h : ∀ e ∈ m.events, e.IsMultipliable k) :
    ∃ ws m', m.events.mapM (scaleEvent (.whole k)) = .ok ws ∧ parse (joinTokens ws) = .ok m' ∧
      List.Forall₂ (Event.Multiple k) m.events m'.events :=
  parse_respelled (isRewriting_multiple hk) trivial hparse h

/-- A factor that is not shown is refused, and there are only comments then. -/
theorem scale_multiple_of_not_isShown (hk : 0 < k) (hparse : parse text = .ok m)
    (h : ∀ e ∈ m.events, e.IsMultipliable k) (hshown : ¬ Text.isShown k) :
    (∀ e ∈ m.events, e.isComment) ∧ scale m.events (.whole k) = .error .notShown := by
  obtain ⟨ws, -, hws, -⟩ := exists_mapM_scaleEvent hk hparse h
  exact ⟨isComment_of_not_isShown (pos_whole hk) hshown hparse fun e he => (h e he).isScalable,
    scale_of_not_isShown (pos_whole hk) hshown (fun e he => (h e he).flaw) (congrArg Except.isOk hws)⟩

theorem scale_eq_joinTokens {ws : List (List Char)} (hk : 0 < k) (hshown : Text.isShown k)
    (h : ∀ e ∈ es, e.IsMultipliable k) (hws : es.mapM (scaleEvent (.whole k)) = .ok ws) :
    scale es (.whole k) = .ok (joinTokens ws) := by
  rw [scale_eq_map (pos_whole hk) hshown fun e he => (h e he).flaw, hws]
  rfl

/-- **Whole scalings compose, and they commute with transpositions, as far as factors and shifts are
shown.** For a score without flaws, with whole durations and with numbers for all its notes, let every
duration stay exact when it is multiplied by both factors. Scaling by one factor gives the score with
every duration multiplied exactly; scaling that by the other writes the same text as scaling by the
product; and transposing it writes the same text as scaling the transposed score. Only the factors of
comments may be too long to be shown; such a factor, as a shift that is not shown, is refused. -/
theorem scale_scale_transpose (hparse : parse text = .ok m) (hsound : m.isFlawed = false)
    (hnamed : ∀ e ∈ m.notes, ∃ n, e.noteNumber? = .ok n) (ha : 0 < a) (hb : 0 < b)
    (hwhole : ∀ e ∈ m.events, ∃ d : ℕ, Number.ofReal e.duration = .whole d ∧ d * a * b ≤ 2 ^ 53)
    (shift : Int) :
    (Text.isShown a → ∃ scaled m₁, scale m.events (.whole a) = .ok scaled ∧ parse scaled = .ok m₁ ∧
      List.Forall₂ (Event.Multiplied a) m.events m₁.events ∧
      (Text.isShown (a * b : ℕ) → ∃ product m₂, scale m₁.events (.whole b) = .ok product ∧
        scale m.events (.whole (a * b : ℕ)) = .ok product ∧ parse product = .ok m₂ ∧
        List.Forall₂ (Event.Multiplied (a * b)) m.events m₂.events) ∧
      (Text.isShown shift → ∃ moved m₃ both, transpose m.events shift = .ok moved ∧
        parse moved = .ok m₃ ∧ transpose m₁.events shift = .ok both ∧
        scale m₃.events (.whole a) = .ok both)) ∧
    (∀ k ∈ [a, b, a * b], ¬ Text.isShown k →
      (∀ e ∈ m.events, e.isComment) ∧ scale m.events (.whole k) = .error .notShown) ∧
    (¬ Text.isShown shift → transpose m.events shift = .error .notShown) := by
  have hflaw := isFlawed_eq_false_iff.mp hsound
  have hleft : ∀ e ∈ m.events, e.IsMultipliable a := fun e he => by
    obtain ⟨d, hd, hle⟩ := hwhole e he
    exact ⟨hflaw e he, d, hd, (Nat.le_mul_of_pos_right _ hb).trans hle⟩
  have hright : ∀ e ∈ m.events, e.IsMultipliable b := fun e he => by
    obtain ⟨d, hd, hle⟩ := hwhole e he
    exact ⟨hflaw e he, d, hd, (Nat.mul_le_mul_right _ (Nat.le_mul_of_pos_right _ ha)).trans hle⟩
  have hboth : ∀ e ∈ m.events, e.IsMultipliable (a * b) := fun e he => by
    obtain ⟨d, hd, hle⟩ := hwhole e he
    exact ⟨hflaw e he, d, hd, Nat.mul_assoc d a b ▸ hle⟩
  have hab := Nat.mul_pos ha hb
  -- the multiplied score, its double multiple and the moved score, each as it is read back
  obtain ⟨ws₁, m₁, hws₁, hparse₁, hmultiple⟩ := exists_mapM_scaleEvent ha hparse hleft
  obtain ⟨ws₂, m₂, hws₂, hparse₂, hmultiple₂⟩ := exists_mapM_scaleEvent hab hparse hboth
  obtain ⟨ws₃, m₃, hws₃, hparse₃, hfollows⟩ := exists_mapM_transposeEvent hparse
    (isNamed_of_isFlawed_eq_false hsound (fun e he => (hleft e he).isScalable.finite) hnamed) shift
  have hflaw₁ : ∀ e ∈ m₁.events, e.flaw = none := fun e he => by
    obtain ⟨_, -, h⟩ := exists_of_mem_right hmultiple e he
    exact h.flaw
  have hmoved : ∀ e ∈ m₃.events, e.IsMultipliable a := fun e he => by
    obtain ⟨e₀, he₀, h⟩ := exists_of_mem_right hfollows e he
    obtain ⟨hflaw₀, d, hd, hle⟩ := hleft e₀ he₀
    exact ⟨h.flaw.trans hflaw₀, d, h.duration ▸ hd, hle⟩
  refine ⟨fun hshown => ⟨joinTokens ws₁, m₁, scale_eq_joinTokens ha hshown hleft hws₁, hparse₁,
    hmultiple.imp fun _ _ h => h.toMultiplied, fun hproduct => ?_, fun hshift => ?_⟩,
    fun k hk => ?_, fun hshift => transpose_of_not_isShown hflaw hshift (congrArg Except.isOk hws₃)⟩
  · have hshown' : Text.isShown b := Text.isShown_of_le (Nat.le_mul_of_pos_left _ ha) hproduct
    have hscaled := scale_eq_joinTokens hab hproduct hboth hws₂
    refine ⟨joinTokens ws₂, m₂, ?_, hscaled, hparse₂, hmultiple₂.imp fun _ _ h => h.toMultiplied⟩
    rw [scale_eq_map (pos_whole hb) hshown' hflaw₁,
      mapM_eq_of_forall₂ (hmultiple.imp fun _ _ h => h.scaleEvent b),
      ← scale_eq_map (pos_whole hab) hproduct hflaw, hscaled]
  · obtain ⟨both, -, hws, -⟩ := exists_mapM_scaleEvent ha hparse₃ hmoved
    have hscaled := scale_eq_joinTokens ha hshown hmoved hws
    refine ⟨joinTokens ws₃, m₃, joinTokens both, ?_, hparse₃, ?_, hscaled⟩
    · rw [transpose_eq_map hflaw hshift, hws₃]
      rfl
    · -- the events of the moved and of the multiplied score come from the same ones
      have htogether : List.Forall₂ (fun e₃ e₁ => transposeEvent shift e₁ = scaleEvent (.whole a) e₃)
          m₃.events m₁.events :=
        (forall₂_comp hfollows.flip hmultiple).imp fun _ _ ⟨_, hf, hm⟩ => hm.transposeEvent hf
      rw [transpose_eq_map hflaw₁ hshift, mapM_eq_of_forall₂ htogether,
        ← scale_eq_map (pos_whole ha) hshown fun e he => (hmoved e he).flaw, hscaled]
  · rcases List.mem_cons.mp hk with rfl | hk
    · exact scale_multiple_of_not_isShown ha hparse hleft
    rcases List.mem_cons.mp hk with rfl | hk
    · exact scale_multiple_of_not_isShown hb hparse hright
    · obtain rfl := List.mem_singleton.mp hk
      exact scale_multiple_of_not_isShown hab hparse hboth

/-- A comment, a sharp whose duration becomes the default, a pause whose duration no longer is, and a
note that is moved into the default octave. -/
theorem scale_scale_transpose_tune :
    ∃ m scaled m₁, parse "//x/ (// c#5(500) p\nb3(2)".toList = .ok m ∧
      scale m.events (.whole (2 : ℕ)) = .ok scaled ∧ parse scaled = .ok m₁ ∧
      List.Forall₂ (Event.Multiplied 2) m.events m₁.events ∧
      (∃ product m₂, scale m₁.events (.whole (3 : ℕ)) = .ok product ∧
        scale m.events (.whole (2 * 3 : ℕ)) = .ok product ∧ parse product = .ok m₂ ∧
        List.Forall₂ (Event.Multiplied (2 * 3)) m.events m₂.events) ∧
      ∃ moved m₃ both, transpose m.events 1 = .ok moved ∧ parse moved = .ok m₃ ∧
        transpose m₁.events 1 = .ok both ∧ scale m₃.events (.whole (2 : ℕ)) = .ok both := by
  obtain ⟨m, hparse, hsound, hnamed, hwhole⟩ :
      ∃ m, parse "//x/ (// c#5(500) p\nb3(2)".toList = .ok m ∧ m.isFlawed = false ∧
        (∀ e ∈ m.notes, e.noteNumber?.isOk) ∧
        ∀ e ∈ m.events, ∃ d ∈ [0, 2, 500, 1000], Number.ofReal e.duration = .whole (d : ℕ) := by
    refine ⟨⟨_, _⟩, rfl, ?_, ?_, ?_⟩ <;> decide +kernel
  obtain ⟨hscale, -⟩ := scale_scale_transpose hparse hsound
    (fun e he => exists_ok_of_isOk (hnamed e he)) (a := 2) (b := 3) (by decide) (by decide)
    (fun e he => by
      obtain ⟨d, hd, hduration⟩ := hwhole e he
      have hle : ∀ d ∈ [0, 2, 500, 1000], d * 2 * 3 ≤ 2 ^ 53 := by decide
      exact ⟨d, hduration, hle d hd⟩) 1
  obtain ⟨scaled, m₁, hscaled, hparse₁, hmultiplied, hproduct, hmoved⟩ := hscale rfl
  exact ⟨m, scaled, m₁, hparse, hscaled, hparse₁, hmultiplied, hproduct rfl, hmoved rfl⟩

/-- A comment is scaled by a factor twice, but not by the square of it, which has too many digits. -/
theorem not_scale_scale_transpose :
    ¬ ∀ (text : List Char) (m : Melody) (a b : ℕ), parse text = .ok m → m.isFlawed = false →
      (∀ e ∈ m.notes, ∃ n, e.noteNumber? = .ok n) → 0 < a → 0 < b →
      (∀ e ∈ m.events, ∃ d : ℕ, Number.ofReal e.duration = .whole d ∧ d * a * b ≤ 2 ^ 53) →
      ∃ scaled m₁ product, scale m.events (.whole a) = .ok scaled ∧ parse scaled = .ok m₁ ∧
        scale m₁.events (.whole b) = .ok product ∧
        scale m.events (.whole (a * b : ℕ)) = .ok product := by
  intro h
  obtain ⟨m, hparse, hsound, hnamed, hzero⟩ :
      ∃ m, parse "//x//".toList = .ok m ∧ m.isFlawed = false ∧
        (∀ e ∈ m.notes, e.noteNumber?.isOk) ∧
        ∀ e ∈ m.events, Number.ofReal e.duration = .whole (0 : ℕ) := by
    refine ⟨⟨_, _⟩, rfl, ?_, ?_, ?_⟩ <;> decide +kernel
  obtain ⟨a, ha, -, hsquare⟩ := Text.exists_isShown_not_isShown_mul
  have hwhole (e : Event) (he : e ∈ m.events) (k : ℕ) :
      ∃ d : ℕ, Number.ofReal e.duration = .whole d ∧ d * k ≤ 2 ^ 53 :=
    ⟨0, hzero e he, (Nat.zero_mul k).symm ▸ Nat.zero_le _⟩
  obtain ⟨scaled, m₁, product, -, -, -, hproduct⟩ := h _ m a a hparse hsound
    (fun e he => exists_ok_of_isOk (hnamed e he)) ha ha
    fun e he => ⟨0, hzero e he, by rw [Nat.zero_mul, Nat.zero_mul]; exact Nat.zero_le _⟩
  obtain ⟨-, hrefused⟩ := scale_multiple_of_not_isShown (Nat.mul_pos ha ha) hparse
    (fun e he => ⟨isFlawed_eq_false_iff.mp hsound e he, hwhole e he _⟩) hsquare
  cases hrefused.symm.trans hproduct

example : (parse "C#5(500) P B3(2)".toList).toOption.map (fun m => scale m.events (.whole 2)) =
    some (.ok "C#5 P(2000) B3(4)".toList) := by
  decide +kernel

end Monody.Melody
