/-
  Lib/LinkSplice.lean --- doubly linked lists that change in front, behind and in the middle.

  A segment is a chain with a link out of it at both ends.  A chain is cut into segments,
  the links at their ends are written, and the segments are put together again.  A cell
  may be in several lists at once: each of them sees the heap through a `view`, which
  shows the links of that list only.
-/
import WowProxy.Lib.LinkedList

set_option autoImplicit false

namespace WowProxy.Lib.LinkedList

universe u v

variable {α : Type u} {β : Type v}

/-! ## Writing one link -/

/-- The heap with the cell at a pointer changed: nothing is written through the null
pointer, and a pointer to no cell is an error. -/
def modify (f : β → β) (h : Nat → Option β) : Option Nat → Option (Nat → Option β)
  | none => some h
  | some p => (h p).map fun c => Function.update h p (some (f c))

theorem modify_of_live (f : β → β) {h : Nat → Option β} {p : Nat} {c : β} (hc : h p = some c) :
    modify f h (some p) = some (Function.update h p (some (f c))) := by
  rw [modify, hc, Option.map_some]

/-- The cell with another link forward. -/
def Cell.setNext (next : Option Nat) (c : Cell α) : Cell α := { c with next }

/-- The cell with another link back. -/
def Cell.setPrev (prev : Option Nat) (c : Cell α) : Cell α := { c with prev }

/-! ## Segments -/

/-- The cells at the addresses are linked to one another, the first of them back to
`prev` and the last on to `next`. -/
def Segment (h : Heap α) : Option Nat → List Nat → Option Nat → Prop
  | _, [], _ => True
  | prev, p :: ps, next =>
    (∃ c, h p = some c ∧ c.prev = prev ∧ c.next = ps.head?.or next) ∧ Segment h (some p) ps next

theorem chain_iff_segment {h : Heap α} {ps : List Nat} :
    ∀ {prev : Option Nat}, Chain h prev ps ↔ Segment h prev ps none := by
  induction ps with
  | nil => intro prev; exact Iff.rfl
  | cons p ps ih =>
    intro prev
    rw [Chain, Segment, ih, Option.or_none]

theorem Segment.congr {h h' : Heap α} {ps : List Nat} {next : Option Nat} :
    ∀ {prev : Option Nat}, (∀ p ∈ ps, h' p = h p) → Segment h prev ps next →
      Segment h' prev ps next := by
  induction ps with
  | nil => intro prev _ _; trivial
  | cons p ps ih =>
    intro prev hsame hseg
    obtain ⟨⟨c, hc, hprev, hnext⟩, hrest⟩ := hseg
    refine ⟨⟨c, ?_, hprev, hnext⟩, ih (fun q hq => hsame q (List.mem_cons_of_mem _ hq)) hrest⟩
    rw [hsame p List.mem_cons_self, hc]

/-- A segment is cut in two. -/
theorem segment_append {h : Heap α} {left right : List Nat} {next : Option Nat} :
    ∀ {prev : Option Nat}, Segment h prev (left ++ right) next ↔
      Segment h prev left (right.head?.or next) ∧
        Segment h (left.getLast?.or prev) right next := by
  induction left with
  | nil => intro prev; exact (iff_of_eq (true_and _)).symm
  | cons p left ih =>
    intro prev
    have hlast : (p :: left).getLast?.or prev = left.getLast?.or (some p) := by
      rw [List.getLast?_cons]
      cases left.getLast? <;> rfl
    rw [List.cons_append, Segment, Segment, ih, List.head?_append, Option.or_assoc, hlast,
      and_assoc]

/-- The link out of a segment at its last cell is written. -/
theorem Segment.setNext {h : Heap α} {prev next : Option Nat} {ps : List Nat}
    (hseg : Segment h prev ps next) (hnodup : ps.Nodup) (next' : Option Nat) :
    ∃ h', modify (Cell.setNext next') h ps.getLast? = some h' ∧ Segment h' prev ps next' ∧
      ∀ q, q ∉ ps → h' q = h q := by
  rcases List.eq_nil_or_concat' ps with rfl | ⟨front, last, rfl⟩
  · exact ⟨h, rfl, trivial, fun _ _ => rfl⟩
  · obtain ⟨hfront, ⟨c, hc, hprev, -⟩, -⟩ := segment_append.mp hseg
    have hlast : last ∉ front := fun hmem =>
      (List.nodup_append.mp hnodup).2.2 last hmem last List.mem_cons_self rfl
    refine ⟨Function.update h last (some (Cell.setNext next' c)), ?_,
      segment_append.mpr ⟨hfront.congr fun q hq => ?_,
        ⟨_, Function.update_self _ _ _, hprev, rfl⟩, trivial⟩, fun q hq => ?_⟩
    · rw [List.getLast?_concat]
      exact modify_of_live _ hc
    · exact Function.update_of_ne (ne_of_mem_of_not_mem hq hlast) _ _
    · exact Function.update_of_ne
        (ne_of_mem_of_not_mem (List.mem_append_right _ List.mem_cons_self) hq).symm _ _

/-- The link out of a segment at its first cell is written. -/
theorem Segment.setPrev {h : Heap α} {prev next : Option Nat} {ps : List Nat}
    (hseg : Segment h prev ps next) (hnodup : ps.Nodup) (prev' : Option Nat) :
    ∃ h', modify (Cell.setPrev prev') h ps.head? = some h' ∧ Segment h' prev' ps next ∧
      ∀ q, q ∉ ps → h' q = h q := by
  cases ps with
  | nil => exact ⟨h, rfl, trivial, fun _ _ => rfl⟩
  | cons first rest =>
    obtain ⟨⟨c, hc, -, hnext⟩, hrest⟩ := hseg
    have hfirst := (List.nodup_cons.mp hnodup).1
    refine ⟨Function.update h first (some (Cell.setPrev prev' c)), modify_of_live _ hc,
      ⟨⟨_, Function.update_self _ _ _, rfl, hnext⟩, hrest.congr fun q hq => ?_⟩, fun q hq => ?_⟩
    · exact Function.update_of_ne (ne_of_mem_of_not_mem hq hfirst) _ _
    · exact Function.update_of_ne (ne_of_mem_of_not_mem List.mem_cons_self hq).symm _ _

/-! ## Rules for a list -/

/-- A cell is linked in front of the first. -/
theorem Chain.push {h : Heap α} {ps : List Nat} {prev : Option Nat} (hchain : Chain h prev ps)
    (hnodup : ps.Nodup) {p : Nat} (hp : p ∉ ps) (v : α) :
    ∃ h', modify (Cell.setPrev (some p)) (h.write p ⟨v, none, ps.head?⟩) ps.head? = some h' ∧
      Chain h' none (p :: ps) ∧ ∀ q, q ∉ p :: ps → h' q = h q := by
  have hseg : Segment (h.write p ⟨v, none, ps.head?⟩) prev ps none :=
    (chain_iff_segment.mp hchain).congr fun q hq => Heap.write_of_ne (ne_of_mem_of_not_mem hq hp)
  obtain ⟨h', hmodify, hseg', hframe⟩ := hseg.setPrev hnodup (some p)
  refine ⟨h', hmodify, ⟨⟨⟨v, none, ps.head?⟩, ?_, rfl, rfl⟩, chain_iff_segment.mpr hseg'⟩,
    fun q hq => ?_⟩
  · rw [hframe p hp]
    exact Heap.write_self _ _ _
  · rw [hframe q fun hmem => hq (List.mem_cons_of_mem _ hmem)]
    exact Heap.write_of_ne (ne_of_mem_of_not_mem List.mem_cons_self hq).symm

/-- A cell is linked behind the last. -/
theorem Chain.append {h : Heap α} {ps : List Nat} (hchain : Chain h none ps) (hnodup : ps.Nodup)
    {p : Nat} (hp : p ∉ ps) (v : α) :
    ∃ h', modify (Cell.setNext (some p)) (h.write p ⟨v, ps.getLast?, none⟩) ps.getLast? =
        some h' ∧
      Chain h' none (ps ++ [p]) := by
  have hseg : Segment (h.write p ⟨v, ps.getLast?, none⟩) none ps none :=
    (chain_iff_segment.mp hchain).congr fun q hq =>
      Heap.write_of_ne (ne_of_mem_of_not_mem hq hp)
  obtain ⟨h', hmodify, hseg', hframe⟩ := hseg.setNext hnodup (some p)
  refine ⟨h', hmodify, chain_iff_segment.mpr (segment_append.mpr
    ⟨hseg', ⟨⟨v, ps.getLast?, none⟩, ?_, ?_, rfl⟩, trivial⟩)⟩
  · rw [hframe p hp]
    exact Heap.write_self _ _ _
  · exact Option.or_none.symm

/-- The links of a cell lead to its neighbours. -/
theorem Chain.links {h : Heap α} {left right : List Nat} {p : Nat}
    (hchain : Chain h none (left ++ p :: right)) :
    ∃ c, h p = some c ∧ c.prev = left.getLast? ∧ c.next = right.head? := by
  obtain ⟨-, ⟨c, hc, hprev, hnext⟩, -⟩ := segment_append.mp (chain_iff_segment.mp hchain)
  exact ⟨c, hc, by rw [hprev, Option.or_none], by rw [hnext, Option.or_none]⟩

/-- A cell is unlinked, wherever it stands. -/
theorem Chain.unlink {h : Heap α} {left right : List Nat} {p : Nat}
    (hchain : Chain h none (left ++ p :: right)) (hnodup : (left ++ p :: right).Nodup) :
    ∃ h₁ h', modify (Cell.setNext right.head?) h left.getLast? = some h₁ ∧
      modify (Cell.setPrev left.getLast?) h₁ right.head? = some h' ∧
      Chain h' none (left ++ right) ∧ ∀ q, q ∉ left ++ right → h' q = h q := by
  obtain ⟨hleft, -, hright⟩ := segment_append.mp (chain_iff_segment.mp hchain)
  obtain ⟨hnodupLeft, hnodupRight, hdisjoint⟩ := List.nodup_append.mp hnodup
  obtain ⟨h₁, hm₁, hleft₁, hframe₁⟩ := hleft.setNext hnodupLeft right.head?
  have hright₁ : Segment h₁ (some p) right none := hright.congr fun q hq =>
    hframe₁ q fun hmem => hdisjoint q hmem q (List.mem_cons_of_mem _ hq) rfl
  obtain ⟨h', hm', hright', hframe'⟩ :=
    hright₁.setPrev (List.nodup_cons.mp hnodupRight).2 left.getLast?
  have hleft' : Segment h' none left right.head? := hleft₁.congr fun q hq =>
    hframe' q fun hmem => hdisjoint q hq q (List.mem_cons_of_mem _ hmem) rfl
  refine ⟨h₁, h', hm₁, hm', chain_iff_segment.mpr (segment_append.mpr ⟨?_, ?_⟩), fun q hq => ?_⟩
  · rwa [Option.or_none]
  · rwa [Option.or_none]
  · rw [List.mem_append, not_or] at hq
    rw [hframe' q hq.2, hframe₁ q hq.1]

/-! ## Lists that share their cells -/

/-- The heap as the cells of one of the lists. -/
def view (see : β → Cell α) (h : Nat → Option β) : Heap α := fun p => (h p).map see

theorem view_eq_some {see : β → Cell α} {h : Nat → Option β} {p : Nat} {c : Cell α}
    (hc : view see h p = some c) : ∃ e, h p = some e ∧ see e = c :=
  Option.map_eq_some_iff.mp hc

theorem view_of_live {see : β → Cell α} {h : Nat → Option β} {p : Nat} {e : β}
    (he : h p = some e) : view see h p = some (see e) := by
  rw [view, he, Option.map_some]

theorem view_congr (see : β → Cell α) {h h' : Nat → Option β} {p : Nat} (hp : h' p = h p) :
    view see h' p = view see h p :=
  congrArg (Option.map see) hp

theorem view_update (see : β → Cell α) (h : Nat → Option β) (p : Nat) (e : β) :
    view see (Function.update h p (some e)) = (view see h).write p (see e) := by
  funext q
  by_cases hq : q = p
  · subst hq
    rw [Heap.write_self]
    exact view_of_live (Function.update_self _ _ _)
  · rw [Heap.write_of_ne hq, view, Function.update_of_ne hq]
    rfl

/-- A write that a list does not see. -/
theorem view_update_same {see : β → Cell α} {h : Nat → Option β} {p : Nat} {e e' : β}
    (he : h p = some e) (hsame : see e' = see e) :
    view see (Function.update h p (some e')) = view see h := by
  rw [view_update, hsame]
  exact Function.update_eq_self_iff.mpr (view_of_live he).symm

/-- A write of a link in one list is that write in its view, and no other list sees it. -/
theorem modify_view {f : β → β} {g : Cell α → Cell α} {see other : β → Cell α}
    (hsee : ∀ e, see (f e) = g (see e)) (hother : ∀ e, other (f e) = other e)
    {h : Nat → Option β} {p : Option Nat} {k : Heap α} (hk : modify g (view see h) p = some k) :
    ∃ h', modify f h p = some h' ∧ view see h' = k ∧ view other h' = view other h := by
  cases p with
  | none => exact ⟨h, rfl, Option.some.inj hk, rfl⟩
  | some p =>
    obtain ⟨c, hc, rfl⟩ := Option.map_eq_some_iff.mp hk
    obtain ⟨e, he, rfl⟩ := view_eq_some hc
    refine ⟨_, modify_of_live f he, ?_, view_update_same he (hother e)⟩
    rw [view_update, hsee]
    rfl

end WowProxy.Lib.LinkedList
