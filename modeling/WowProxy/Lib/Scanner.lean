/-
  Lib/Scanner.lean --- scanners of terminated texts, and how far they look.

  A scanner reads a text from its first byte on and hands back what it leaves.  The
  end of the list and a NUL read alike.  A scanner may look ahead, but not past a
  mark it does not take: `near` says that what stands behind such a mark makes no
  difference.  Every scanner that is put together from the ones of this file has this
  property, and so have the tokens a text is split into: they are the same in front
  of a mark, whatever follows it.
-/
import Mathlib.Data.List.Infix

set_option autoImplicit false

namespace WowProxy.Lib

/-! ## Scanners -/

/-- A function that takes a part of a text, with the way it looks at it. -/
structure Scanner (mark : UInt8) (β : Type) where
  run : List UInt8 → β × List UInt8
  suffix : ∀ s, (run s).2 <:+ s
  near : ∀ u r r' b v, run (u ++ mark :: r) = (b, v ++ mark :: r) →
    run (u ++ mark :: r') = (b, v ++ mark :: r')

namespace Scanner

variable {mark : UInt8} {β γ σ : Type}

/-- Nothing that begins with the mark is left of what stands behind it. -/
theorem not_suffix_behind {v r : List UInt8} : ¬ v ++ mark :: r <:+ r := fun h => by
  have := h.length_le
  simp only [List.length_append, List.length_cons] at this
  omega

/-- What is left in front of the mark. -/
theorem left_eq {b b' : β} {u v r : List UInt8}
    (h : (b, u ++ mark :: r) = (b', v ++ mark :: r)) : b = b' ∧ u = v :=
  ⟨(Prod.mk.inj h).1, List.append_cancel_right (Prod.mk.inj h).2⟩

/-- `return b`. -/
def ret (b : β) : Scanner mark β where
  run := fun s => (b, s)
  suffix := List.suffix_refl
  near := fun u r r' b' v h => by
    obtain ⟨rfl, rfl⟩ := left_eq h
    rfl

/-- One scanner behind another. -/
def andThen (p : Scanner mark β) (f : β → Scanner mark γ) : Scanner mark γ where
  run := fun s => (f (p.run s).1).run (p.run s).2
  suffix := fun s => ((f (p.run s).1).suffix _).trans (p.suffix s)
  near := fun u r r' b v h => by
    -- The first scanner leaves the mark, since the second one does.
    have hleft := (f (p.run (u ++ mark :: r)).1).suffix (p.run (u ++ mark :: r)).2
    rw [h] at hleft
    obtain ⟨w, hw⟩ := (List.suffix_append v (mark :: r)).trans hleft
    have hfirst := p.near u r r' _ w (Prod.ext rfl hw.symm)
    rw [← hw] at h
    rw [hfirst]
    exact (f _).near w r r' b v h

instance : Monad (Scanner mark) where
  pure := ret
  bind := andThen

@[simp] theorem run_bind (p : Scanner mark β) (f : β → Scanner mark γ) (s : List UInt8) :
    (p >>= f).run s = (f (p.run s).1).run (p.run s).2 := rfl

/-- The next byte is looked at. -/
def peek : Scanner mark UInt8 where
  run := fun s => (s.headD 0, s)
  suffix := List.suffix_refl
  near := fun u r r' b v h => by
    obtain ⟨rfl, rfl⟩ := left_eq h
    cases u with
    | nil => rfl
    | cons c u => rfl

/-- The next byte is taken. -/
def next : Scanner mark UInt8 where
  run := fun s => (s.headD 0, s.tail)
  suffix := List.tail_suffix
  near := fun u r r' b v h => by
    cases u with
    | nil =>
      have hleft : r = v ++ mark :: r := (Prod.mk.inj h).2
      exact absurd ⟨[], hleft.symm⟩ not_suffix_behind
    | cons c u =>
      obtain ⟨rfl, rfl⟩ := left_eq h
      rfl

/-- `i++`. -/
def skip : Scanner mark Unit := do
  let _ ← next
  return ()

/-- The next bytes satisfy the predicates in turn. -/
def matchesAll : List (UInt8 → Bool) → List UInt8 → Bool
  | [], _ => true
  | p :: ps, s => p (s.headD 0) && matchesAll ps s.tail

theorem matchesAll_near {ps : List (UInt8 → Bool)}
    (hps : ps.dropLast.all (fun p => !p mark) = true) (u r r' : List UInt8) :
    matchesAll ps (u ++ mark :: r) = matchesAll ps (u ++ mark :: r') := by
  induction ps generalizing u with
  | nil => rfl
  | cons p ps ih =>
    cases u with
    | nil =>
      cases ps with
      | nil => rfl
      | cons p' ps =>
        -- A predicate that is not the last one refuses the mark.
        have hp : p mark = false := by
          rw [List.dropLast_cons_cons, List.all_cons, Bool.and_eq_true] at hps
          simpa using hps.1
        simp [matchesAll, hp]
    | cons c u =>
      have hrest : ps.dropLast.all (fun p => !p mark) = true := by
        cases ps with
        | nil => rfl
        | cons p' ps =>
          rw [List.dropLast_cons_cons, List.all_cons, Bool.and_eq_true] at hps
          exact hps.2
      simp only [List.cons_append, matchesAll, List.headD_cons, List.tail_cons, ih hrest u]

/-- Whether they do is looked at, with nothing taken. -/
def isNext (ps : List (UInt8 → Bool)) (hps : ps.dropLast.all (fun p => !p mark) = true) :
    Scanner mark Bool where
  run := fun s => (matchesAll ps s, s)
  suffix := List.suffix_refl
  near := fun u r r' b v h => by
    obtain ⟨rfl, rfl⟩ := left_eq h
    rw [matchesAll_near hps u r r']

/-! ## Loops -/

/-- Bytes are taken while the step has a next state; it is shown the byte and the one
behind it. -/
def scanFrom (step : σ → UInt8 → UInt8 → Option σ) : σ → List UInt8 → σ × List UInt8
  | st, [] => (st, [])
  | st, b :: s =>
    match step st b (s.headD 0) with
    | none => (st, b :: s)
    | some st' => scanFrom step st' s

variable {step : σ → UInt8 → UInt8 → Option σ}

theorem scanFrom_suffix (st : σ) (s : List UInt8) : (scanFrom step st s).2 <:+ s := by
  induction s generalizing st with
  | nil => exact List.suffix_refl _
  | cons b s ih =>
    rw [scanFrom]
    split
    · exact List.suffix_refl _
    · exact (ih _).trans (List.suffix_cons b s)

theorem scanFrom_near (hstep : ∀ st b b', step st mark b = step st mark b') (st : σ)
    (u r r' : List UInt8) (st' : σ) (v : List UInt8)
    (h : scanFrom step st (u ++ mark :: r) = (st', v ++ mark :: r)) :
    scanFrom step st (u ++ mark :: r') = (st', v ++ mark :: r') := by
  induction u generalizing st with
  | nil =>
    rw [List.nil_append, scanFrom] at h ⊢
    rw [hstep st _ (r.headD 0)]
    cases hnext : step st mark (r.headD 0) with
    | none =>
      rw [hnext] at h
      obtain ⟨rfl, rfl⟩ := left_eq (u := []) h
      rfl
    | some st'' =>
      -- A loop that takes the mark does not give it back.
      have hsuffix : (scanFrom step st'' r).2 <:+ r := scanFrom_suffix st'' r
      rw [hnext] at h
      rw [show scanFrom step st'' r = (st', v ++ mark :: r) from h] at hsuffix
      exact absurd hsuffix not_suffix_behind
  | cons c u ih =>
    have hhead : (u ++ mark :: r').headD 0 = (u ++ mark :: r).headD 0 := by cases u <;> rfl
    rw [List.cons_append, scanFrom] at h ⊢
    rw [hhead]
    cases hnext : step st c ((u ++ mark :: r).headD 0) with
    | none =>
      rw [hnext] at h
      obtain ⟨rfl, rfl⟩ := left_eq (u := c :: u) h
      rfl
    | some st'' =>
      rw [hnext] at h
      exact ih st'' h

/-- A loop with a state. -/
def scan (step : σ → UInt8 → UInt8 → Option σ)
    (hstep : ∀ st b b', step st mark b = step st mark b') (st : σ) : Scanner mark σ where
  run := scanFrom step st
  suffix := scanFrom_suffix st
  near := scanFrom_near hstep st

/-- `while (p(*z)) z++`. -/
def skipWhile (p : UInt8 → Bool) : Scanner mark Unit :=
  scan (fun _ b _ => if p b then some () else none) (fun _ _ _ => rfl) ()

end Scanner

/-! ## Tokens -/

/-- A part of a text, and what it is. -/
structure Token (τ : Type) where
  type : τ
  text : List UInt8
  deriving DecidableEq

/-- A scanner that takes something of every text there is. -/
structure Lexer (mark : UInt8) (τ : Type) extends Scanner mark τ where
  progress : ∀ c s, (run (c :: s)).2.length ≤ s.length

/-- A lexer that takes the first byte and then decides. -/
def Lexer.ofNext {mark : UInt8} {τ : Type} (f : UInt8 → Scanner mark τ) : Lexer mark τ where
  toScanner := Scanner.next >>= f
  progress := fun c s => ((f c).suffix s).length_le

namespace Lexer

variable {mark : UInt8} {τ : Type} (L : Lexer mark τ)

/-- The tokens of a text, for at most so many of them. -/
def tokensFrom : Nat → List UInt8 → List (Token τ)
  | 0, _ => []
  | _ + 1, [] => []
  | fuel + 1, c :: s =>
    if c = 0 then []
    else
      let (type, rest) := L.run (c :: s)
      { type := type, text := (c :: s).take (s.length + 1 - rest.length) } ::
        tokensFrom fuel rest

/-- The tokens a text is split into, up to its terminator. -/
def tokens (s : List UInt8) : List (Token τ) := L.tokensFrom s.length s

/-- From the length of the text on, more fuel changes nothing. -/
theorem tokensFrom_fuel : ∀ (fuel fuel' : Nat) (s : List UInt8), s.length ≤ fuel →
    s.length ≤ fuel' → L.tokensFrom fuel s = L.tokensFrom fuel' s
  | 0, 0, _, _, _ => rfl
  | 0, _ + 1, [], _, _ => rfl
  | _ + 1, 0, [], _, _ => rfl
  | _ + 1, _ + 1, [], _, _ => rfl
  | fuel + 1, fuel' + 1, c :: s, h, h' => by
    have hlt := L.progress c s
    have ih := tokensFrom_fuel fuel fuel' (L.run (c :: s)).2
      (hlt.trans (Nat.le_of_succ_le_succ h)) (hlt.trans (Nat.le_of_succ_le_succ h'))
    simp only [tokensFrom, ih]

/-- What a lexer takes is the first token. -/
theorem tokens_append {type : τ} {text rest : List UInt8} (hne : text ≠ [])
    (hnul : text.head? ≠ some 0) (h : L.run (text ++ rest) = (type, rest)) :
    L.tokens (text ++ rest) = ⟨type, text⟩ :: L.tokens rest := by
  obtain ⟨c, text, rfl⟩ := List.exists_cons_of_ne_nil hne
  have hc : c ≠ 0 := fun hc => hnul (by rw [hc]; rfl)
  have hlen : (text ++ rest).length + 1 - rest.length = (c :: text).length := by
    simp only [List.length_append, List.length_cons]
    omega
  have hfuel : L.tokensFrom (text ++ rest).length rest = L.tokens rest :=
    L.tokensFrom_fuel _ _ _ (by simp) (Nat.le_refl _)
  show L.tokensFrom ((text ++ rest).length + 1) (c :: (text ++ rest)) = _
  rw [tokensFrom, if_neg hc]
  rw [List.cons_append] at h
  simp only [h, hlen, hfuel]
  rw [← List.cons_append, List.take_left]

/-- The first token is what the lexer takes. -/
theorem tokens_eq_cons {s : List UInt8} {t : Token τ} {toks : List (Token τ)}
    (h : L.tokens s = t :: toks) :
    ∃ rest, s = t.text ++ rest ∧ t.text ≠ [] ∧ t.text.head? ≠ some 0 ∧
      L.run s = (t.type, rest) ∧ L.tokens rest = toks := by
  cases s with
  | nil => cases h
  | cons c s =>
    have hlt := L.progress c s
    obtain ⟨text, htext⟩ := L.suffix (c :: s)
    obtain ⟨type, rest, hrun⟩ : ∃ type rest, L.run (c :: s) = (type, rest) := ⟨_, _, rfl⟩
    rw [hrun] at hlt htext
    dsimp only at hlt htext
    have hne : text ≠ [] := by
      rintro rfl
      have hall : rest = c :: s := htext
      rw [hall] at hlt
      exact absurd hlt (Nat.not_succ_le_self s.length)
    have hnul : text.head? ≠ some 0 := by
      intro hhead
      obtain ⟨d, text, rfl⟩ := List.exists_cons_of_ne_nil hne
      obtain rfl := (List.cons.inj htext).1
      obtain rfl := Option.some.inj hhead
      rw [tokens, tokensFrom.eq_def] at h
      simp at h
    rw [← htext] at h hrun ⊢
    rw [L.tokens_append hne hnul hrun] at h
    obtain ⟨rfl, rfl⟩ := List.cons.inj h
    exact ⟨rest, rfl, hne, hnul, hrun, rfl⟩

/-- The tokens are parts of the text, one behind the other. -/
theorem texts_prefix (s : List UInt8) : (L.tokens s).flatMap Token.text <+: s := by
  generalize htoks : L.tokens s = toks
  induction toks generalizing s with
  | nil => exact List.nil_prefix
  | cons t toks ih =>
    obtain ⟨rest, rfl, -, -, -, hrest⟩ := L.tokens_eq_cons htoks
    rw [List.flatMap_cons, List.prefix_append_right_inj]
    exact ih rest hrest

/-- Together they are all of a text without a NUL. -/
theorem texts_eq {s : List UInt8} (hnul : 0 ∉ s) : (L.tokens s).flatMap Token.text = s := by
  generalize htoks : L.tokens s = toks
  induction toks generalizing s with
  | nil =>
    cases s with
    | nil => rfl
    | cons c s =>
      have hc : c ≠ 0 := fun hc => hnul (hc ▸ List.mem_cons_self)
      rw [tokens, List.length_cons, tokensFrom, if_neg hc] at htoks
      cases htoks
  | cons t toks ih =>
    obtain ⟨rest, rfl, -, -, -, hrest⟩ := L.tokens_eq_cons htoks
    rw [List.flatMap_cons, ih (fun h => hnul (List.mem_append_right _ h)) hrest]

/-- A text in front of a mark, with the tokens it is split into there. -/
structure Splits (u : List UInt8) (toks : List (Token τ)) : Prop where
  texts : toks.flatMap Token.text = u
  tokens_eq : L.tokens (u ++ [mark]) = toks ++ L.tokens [mark]

/-- **What stands behind a mark changes no token in front of it.** -/
theorem tokens_mark {u : List UInt8} {toks : List (Token τ)} {r : List UInt8}
    (htexts : toks.flatMap Token.text = u)
    (htokens : L.tokens (u ++ mark :: r) = toks ++ L.tokens (mark :: r)) (r' : List UInt8) :
    L.tokens (u ++ mark :: r') = toks ++ L.tokens (mark :: r') := by
  induction toks generalizing u with
  | nil =>
    obtain rfl : u = [] := htexts.symm
    rfl
  | cons t toks ih =>
    obtain ⟨rest, hsplit, hne, hnul, hrun, hrest⟩ := L.tokens_eq_cons htokens
    obtain rfl : t.text ++ toks.flatMap Token.text = u := htexts
    rw [List.append_assoc] at hsplit hrun ⊢
    obtain rfl := List.append_cancel_left hsplit
    -- The first token leaves the mark, so it is taken in the same way.
    have hnear := L.near (t.text ++ toks.flatMap Token.text) r r' t.type
      (toks.flatMap Token.text) (by rwa [List.append_assoc])
    rw [List.append_assoc] at hnear
    rw [L.tokens_append hne hnul hnear, ih rfl hrest, List.cons_append]

theorem Splits.tokens {L : Lexer mark τ} {u : List UInt8} {toks : List (Token τ)}
    (h : L.Splits u toks) (r : List UInt8) :
    L.tokens (u ++ mark :: r) = toks ++ L.tokens (mark :: r) :=
  L.tokens_mark h.texts h.tokens_eq r

end Lexer

end WowProxy.Lib
