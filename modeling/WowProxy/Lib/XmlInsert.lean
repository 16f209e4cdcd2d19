/-
  Lib/XmlInsert.lean --- a text that is written between markup.

  `head ++ content ++ tail` opens an element, writes a text into it and closes it.  As
  no item can reach across a `<`, the items of the document are those of the head,
  those of the content and those of the tail; and as character data is never longer
  than its source, a reader gets the content back only where every byte of it is an
  item of its own.
-/
import WowProxy.Lib.XmlReader

set_option autoImplicit false

namespace WowProxy.Lib.XmlReader

/-! ## Texts that are made of given items -/

/-- In front of any text, `s` reads as the items `is`. -/
def Reads (s : Bytes) (is : List Item) : Prop :=
  ∀ rest js, Lexes (s ++ rest) js ↔ ∃ js', js = is ++ js' ∧ Lexes rest js'

theorem Reads.nil : Reads [] [] := by
  intro rest js
  exact ⟨fun h => ⟨js, rfl, h⟩, fun ⟨_, heq, h⟩ => heq ▸ h⟩

/-- One item. -/
theorem Reads.item {s : Bytes} {i : Item}
    (h : ∀ rest, XmlReader.item (s ++ rest) = some (i, rest)) : Reads s [i] := by
  intro rest js
  constructor
  · intro hlexes
    have hfirst := h rest
    generalize s ++ rest = doc at hfirst hlexes
    cases hlexes with
    | nil => exact absurd hfirst (by simp [XmlReader.item])
    | cons hitem hrest =>
      obtain ⟨rfl, rfl⟩ := Prod.mk.inj (Option.some.inj (hfirst.symm.trans hitem))
      exact ⟨_, rfl, hrest⟩
  · rintro ⟨js', rfl, hrest⟩
    exact .cons (h rest) hrest

theorem Reads.append {s t : Bytes} {is js : List Item} (hs : Reads s is) (ht : Reads t js) :
    Reads (s ++ t) (is ++ js) := by
  intro rest ks
  rw [List.append_assoc, hs]
  constructor
  · rintro ⟨ks', rfl, h⟩
    obtain ⟨ks'', rfl, hrest⟩ := (ht _ _).mp h
    exact ⟨ks'', by rw [List.append_assoc], hrest⟩
  · rintro ⟨ks', rfl, h⟩
    exact ⟨js ++ ks', by rw [List.append_assoc], (ht _ _).mpr ⟨ks', rfl, h⟩⟩

/-- The item in front of the items of the rest. -/
theorem Reads.cons {s t : Bytes} {i : Item} {is : List Item}
    (h : ∀ rest, XmlReader.item (s ++ rest) = some (i, rest)) (ht : Reads t is) :
    Reads (s ++ t) (i :: is) :=
  (Reads.item h).append ht

/-- At the end of a document. -/
theorem Reads.lexes_iff {s : Bytes} {is : List Item} (h : Reads s is) (js : List Item) :
    Lexes s js ↔ js = is := by
  have hempty := h [] js
  rw [List.append_nil] at hempty
  rw [hempty]
  constructor
  · rintro ⟨js', rfl, hnil⟩
    cases hnil with
    | nil => exact List.append_nil _
    | cons hitem _ => exact absurd hitem (by simp [XmlReader.item])
  · rintro rfl
    exact ⟨[], (List.append_nil _).symm, .nil⟩

/-! ## Content in front of a tag -/

/-- The bytes an application sees. -/
def data (is : List Item) : Bytes := is.flatMap Item.bytes

/-- A text that stands for itself between tags. -/
structure Plain (s : Bytes) : Prop where
  valid : Utf8.valid s = true
  unmarked : ∀ b ∈ s, b ≠ 60 ∧ b ≠ 38 ∧ b ≠ 13
  unended : ¬ cdataEnd <:+: s

section Tail

variable {tail : Bytes} (htail : tail.head? = some 60) (hend : ∀ t ∈ terminators, ¬ t <:+: tail)

include htail

theorem mem_of_tail {a rest : Bytes} (ha : a ≠ []) (h : tail = a ++ rest) : (60 : UInt8) ∈ a := by
  cases a with
  | nil => exact absurd rfl ha
  | cons b a =>
    rw [h] at htail
    rw [Option.some.inj htail]
    exact List.mem_cons_self

/-- The end of a CDATA section does not reach into the tail. -/
theorem not_cdataEnd {s : Bytes} (h : ¬ cdataEnd <:+: s) : ¬ cdataEnd <+: s ++ tail := by
  intro hpat
  rcases List.prefix_or_prefix_of_prefix hpat (List.prefix_append s tail) with hin | hacross
  · exact h hin.isInfix
  · obtain ⟨a, ha⟩ := hacross
    by_cases hnil : a = []
    · rw [hnil, List.append_nil] at ha
      exact h (ha ▸ List.infix_refl _)
    · rw [← ha] at hpat
      obtain ⟨rest, hrest⟩ := (List.prefix_append_right_inj s).mp hpat
      have hmem : (60 : UInt8) ∈ cdataEnd := by
        rw [← ha]
        exact List.mem_append_right _ (mem_of_tail htail hnil hrest.symm)
      exact absurd hmem (by decide)

include hend

/-- An item that begins in the content ends in it. -/
theorem Takes.inside {content used rest : Bytes} {i : Item} (hi : Takes i used)
    (hne : content ≠ []) (h : content ++ tail = used ++ rest) :
    ∃ behind, content = used ++ behind ∧ rest = behind ++ tail := by
  rcases List.append_eq_append_iff.mp h with ⟨a, hused, hrest⟩ | ⟨behind, hcontent, hrest⟩
  · by_cases hnil : a = []
    · rw [hnil, List.append_nil] at hused
      rw [hnil, List.nil_append] at hrest
      exact ⟨[], by rw [hused, List.append_nil], hrest.symm⟩
    · have hmem := mem_of_tail htail hnil hrest
      rcases hi.contained with hnot | ⟨t, ht, hsuffix⟩
      · refine absurd ?_ hnot
        rw [hused, List.tail_append_of_ne_nil hne]
        exact List.mem_append_right _ hmem
      · rw [hused] at hsuffix
        rcases List.suffix_or_suffix_of_suffix hsuffix (List.suffix_append content a) with
          hin | hacross
        · refine absurd ?_ (hend t ht)
          rw [hrest]
          exact hin.isInfix.trans (List.prefix_append a rest).isInfix
        · -- No terminator contains a `<`.
          have hnone : ∀ t ∈ terminators, (60 : UInt8) ∉ t := by decide
          exact absurd (hacross.subset hmem) (hnone t ht)
  · exact ⟨behind, hcontent, hrest⟩

/-- **The items of content in front of a tail, and what their character data says about
the content.** -/
theorem Lexes.split {content s : Bytes} {is : List Item} (h : Lexes s is)
    (hs : s = content ++ tail) :
    ∃ cs ts, is = cs ++ ts ∧ Lexes tail ts ∧ (data cs).length ≤ content.length ∧
      (data cs = content →
        (∀ b ∈ content, b ≠ 60 ∧ b ≠ 38 ∧ b ≠ 13) ∧ ¬ cdataEnd <:+: content) := by
  induction h generalizing content with
  | nil =>
    have hnil : tail = [] := (List.append_eq_nil_iff.mp hs.symm).2
    rw [hnil] at htail
    exact absurd htail (by simp)
  | @cons s rest i is hitem hrest ih =>
    by_cases hne : content = []
    · subst hne
      rw [List.nil_append] at hs
      refine ⟨[], i :: is, rfl, hs ▸ .cons hitem hrest, Nat.le_refl 0, fun _ => ⟨?_, ?_⟩⟩
      · exact fun b hb => absurd hb List.not_mem_nil
      · exact fun hpat => absurd (List.infix_nil.mp hpat) (by decide)
    · obtain ⟨used, hused, htakes⟩ := item_takes hitem
      obtain ⟨behind, rfl, rfl⟩ := htakes.inside htail hend hne (hs.symm.trans hused)
      obtain ⟨cs, ts, rfl, hts, hlength, hplain⟩ := ih rfl
      have hle := htakes.length_le
      refine ⟨i :: cs, ts, rfl, hts, ?_, fun hdata => ?_⟩
      · show (i.bytes ++ data cs).length ≤ _
        simp only [List.length_append]
        omega
      · -- Neither part can make up for the other.
        have hdata : i.bytes ++ data cs = used ++ behind := hdata
        have hlengths := congrArg List.length hdata
        simp only [List.length_append] at hlengths
        obtain ⟨hbytes, hrest⟩ := List.append_inj hdata (by omega)
        obtain ⟨b, rfl, hb⟩ := htakes.plain hbytes
        obtain ⟨hunmarked, hunended⟩ := hplain hrest
        constructor
        · intro c hc
          rcases List.mem_cons.mp hc with rfl | hc
          · exact hb
          · exact hunmarked c hc
        · intro hpat
          rcases List.infix_cons_iff.mp hpat with hstart | hlater
          · obtain ⟨more, hmore⟩ := hstart
            have hs' : s = cdataEnd ++ (more ++ tail) := by
              rw [hs, ← List.append_assoc, hmore]
              rfl
            rw [hs', item_cdataEnd] at hitem
            exact absurd hitem (by simp)
          · exact hunended hlater

end Tail

/-- Plain content reads as its bytes. -/
theorem Plain.lexes {content tail : Bytes} (htail : tail.head? = some 60) (h : Plain content)
    {ts : List Item} (hts : Lexes tail ts) :
    Lexes (content ++ tail) (content.map (fun b => Item.data [b]) ++ ts) := by
  obtain ⟨-, hunmarked, hunended⟩ := h
  induction content with
  | nil => exact hts
  | cons b content ih =>
    obtain ⟨hlt, hamp, hcr⟩ := hunmarked b List.mem_cons_self
    refine .cons (item_plain hlt hamp hcr ?_) (ih ?_ ?_)
    · exact not_cdataEnd htail hunended
    · exact fun c hc => hunmarked c (List.mem_cons_of_mem b hc)
    · exact fun hpat => hunended (List.infix_cons hpat)

/-! ## What a reader knows -/

/-- What one item makes of a reading. -/
inductive Reading.Takes (name : Bytes) (st : Reading) : Item → Reading → Prop where
  | other : Takes name st .other st
  /-- blanks outside the root -/
  | blank {bytes : Bytes} (houtside : st.stack = []) : Takes name st (.data bytes) st
  | text {bytes n text : Bytes} {outer : List (Bytes × Bytes)}
      (hstack : st.stack = (n, text) :: outer) :
      Takes name st (.data bytes) { st with stack := (n, text ++ bytes) :: outer }
  | start {n : Bytes} :
      Takes name st (.start n) { st with stack := (n, []) :: st.stack, rooted := true }
  | empty {n : Bytes} :
      Takes name st (.empty n)
        { st with found := st.found ++ (if n = name then [[]] else []), rooted := true }
  | stop {n text : Bytes} {outer : List (Bytes × Bytes)}
      (hstack : st.stack = (n, text) :: outer) :
      Takes name st (.stop n)
        { st with stack := outer, found := st.found ++ (if n = name then [text] else []) }

theorem Reading.takes_of_next {name : Bytes} (st : Reading) {st' : Reading} {i : Item}
    (h : st.next name i = some st') : st.Takes name i st' := by
  cases i with
  | other =>
    obtain rfl := Option.some.inj h
    exact .other
  | data bytes =>
    cases hstack : st.stack with
    | nil =>
      simp only [Reading.next, hstack, Option.ite_none_right_eq_some] at h
      obtain ⟨-, h⟩ := h
      obtain rfl := Option.some.inj h
      exact .blank hstack
    | cons f outer =>
      simp only [Reading.next, hstack] at h
      obtain rfl := Option.some.inj h
      exact .text hstack
  | start n =>
    simp only [Reading.next, Option.ite_none_left_eq_some] at h
    obtain rfl := Option.some.inj h.2
    exact .start
  | empty n =>
    simp only [Reading.next, Option.ite_none_left_eq_some] at h
    obtain rfl := Option.some.inj h.2
    exact .empty
  | stop n =>
    cases hstack : st.stack with
    | nil =>
      simp only [Reading.next, hstack] at h
      exact absurd h (by simp)
    | cons f outer =>
      simp only [Reading.next, hstack, Option.ite_none_right_eq_some] at h
      obtain ⟨rfl, h⟩ := h
      obtain rfl := Option.some.inj h
      exact .stop hstack

/-- The texts of the open elements of the name come from the character data `seen`. -/
def Tracked (name seen : Bytes) (st : Reading) : Prop :=
  ∀ f ∈ st.stack, f.1 = name → f.2.Sublist seen

/-- Behind the start of the first element of the name. -/
theorem Tracked.opened {name : Bytes} {outer : List (Bytes × Bytes)}
    (houter : ∀ f ∈ outer, f.1 ≠ name) :
    Tracked name [] { stack := (name, []) :: outer, found := [], rooted := true } := by
  intro f hf hname
  rcases List.mem_cons.mp hf with rfl | hf
  · exact List.nil_sublist _
  · exact absurd hname (houter f hf)

theorem Tracked.next {name seen : Bytes} {st st' : Reading} {i : Item} (h : Tracked name seen st)
    (hnext : st.next name i = some st') : Tracked name (seen ++ i.bytes) st' := by
  have hgrow : Tracked name (seen ++ i.bytes) st := fun f hf hname =>
    (h f hf hname).trans (List.sublist_append_left _ _)
  cases st.takes_of_next hnext with
  | other => exact hgrow
  | blank => exact hgrow
  | @text bytes n text outer hstack =>
    intro f hf hname
    rcases List.mem_cons.mp hf with rfl | hf
    · have htext := h (n, text) (hstack ▸ List.mem_cons_self) hname
      exact htext.append (List.Sublist.refl bytes)
    · exact hgrow f (hstack ▸ List.mem_cons_of_mem _ hf) hname
  | start =>
    intro f hf hname
    rcases List.mem_cons.mp hf with rfl | hf
    · exact List.nil_sublist _
    · exact hgrow f hf hname
  | empty => exact hgrow
  | stop hstack => exact fun f hf hname => hgrow f (hstack ▸ List.mem_cons_of_mem _ hf) hname

theorem read_cons {name : Bytes} {st st' : Reading} {i : Item} {is : List Item} :
    st.read name (i :: is) = some st' ↔
      ∃ next, st.next name i = some next ∧ next.read name is = some st' :=
  Option.bind_eq_some_iff

theorem read_append {name : Bytes} {st st' : Reading} {is js : List Item} :
    st.read name (is ++ js) = some st' ↔
      ∃ next, st.read name is = some next ∧ next.read name js = some st' := by
  unfold Reading.read
  rw [List.foldlM_append]
  exact Option.bind_eq_some_iff

theorem Tracked.read {name seen : Bytes} {st st' : Reading} {is : List Item}
    (h : Tracked name seen st) (hread : st.read name is = some st') :
    Tracked name (seen ++ data is) st' := by
  induction is generalizing seen st with
  | nil =>
    obtain rfl := Option.some.inj hread
    rwa [data, List.flatMap_nil, List.append_nil]
  | cons i is ih =>
    obtain ⟨next, hnext, hrest⟩ := read_cons.mp hread
    have hdata : seen ++ data (i :: is) = seen ++ i.bytes ++ data is := by
      rw [List.append_assoc]
      rfl
    rw [hdata]
    exact ih (h.next hnext) hrest

/-- What has been found stays found. -/
theorem found_next {name : Bytes} {st st' : Reading} {i : Item}
    (h : st.next name i = some st') : st.found <+: st'.found := by
  cases st.takes_of_next h with
  | other => exact List.prefix_refl _
  | blank => exact List.prefix_refl _
  | text => exact List.prefix_refl _
  | start => exact List.prefix_refl _
  | empty => exact List.prefix_append _ _
  | stop => exact List.prefix_append _ _

theorem found_read {name : Bytes} {st st' : Reading} {is : List Item}
    (h : st.read name is = some st') : st.found <+: st'.found := by
  induction is generalizing st with
  | nil =>
    obtain rfl := Option.some.inj h
    exact List.prefix_refl _
  | cons i is ih =>
    obtain ⟨next, hnext, hrest⟩ := read_cons.mp h
    exact (found_next hnext).trans (ih hrest)

/-- The reading with texts that were found before. -/
def Reading.behind (found : List Bytes) (st : Reading) : Reading :=
  { st with found := found ++ st.found }

/-- What was found before does not matter. -/
theorem next_behind {name : Bytes} (found : List Bytes) (st : Reading) (i : Item) :
    (st.behind found).next name i = (st.next name i).map (·.behind found) := by
  obtain ⟨stack, found', rooted⟩ := st
  cases i with
  | other => rfl
  | data bytes =>
    cases stack with
    | nil => cases h : bytes.all isBlank <;> simp [Reading.next, Reading.behind, h]
    | cons f outer => rfl
  | start n =>
    by_cases h : stack = [] ∧ rooted = true <;> simp [Reading.next, Reading.behind, h]
  | empty n =>
    by_cases h : stack = [] ∧ rooted = true <;> simp [Reading.next, Reading.behind, h]
  | stop n =>
    cases stack with
    | nil => rfl
    | cons f outer => by_cases h : f.1 = n <;> simp [Reading.next, Reading.behind, h]

theorem read_behind (name : Bytes) (found : List Bytes) (st : Reading) (is : List Item) :
    (st.behind found).read name is = (st.read name is).map (·.behind found) := by
  induction is generalizing st with
  | nil => rfl
  | cons i is ih =>
    show ((st.behind found).next name i).bind (Reading.read name · is) =
      ((st.next name i).bind (Reading.read name · is)).map _
    rw [next_behind]
    cases st.next name i with
    | none => rfl
    | some st' => exact ih st'

/-- Bytes of character data go into the innermost element. -/
theorem read_data {name n text : Bytes} {outer : List (Bytes × Bytes)} {found : List Bytes}
    (content : Bytes) :
    ({ stack := (n, text) :: outer, found := found, rooted := true } : Reading).read name
      (content.map fun b => Item.data [b]) =
      some { stack := (n, text ++ content) :: outer, found := found, rooted := true } := by
  induction content generalizing text with
  | nil => rw [List.append_nil]; rfl
  | cons b content ih =>
    have hassoc : text ++ b :: content = text ++ [b] ++ content := by
      rw [List.append_assoc]
      rfl
    rw [List.map_cons, read_cons]
    exact ⟨_, rfl, hassoc ▸ ih⟩

/-! ## Insertion -/

/-- **Text that is written between the tags of an element is read back, as the only
element of its name, exactly when it is plain.** -/
theorem elementTexts_insert {name head tail content : Bytes} {his ts : List Item}
    {outer : List (Bytes × Bytes)} (hhead : Reads head his)
    (hopen : Reading.before.read name his =
      some { stack := (name, []) :: outer, found := [], rooted := true })
    (htail : Reads tail (.stop name :: ts))
    (hclose : ({ stack := outer, found := [], rooted := true } : Reading).read name ts =
      some { stack := [], found := [], rooted := true })
    (houter : ∀ f ∈ outer, f.1 ≠ name)
    (hascii : head.all Utf8.isAscii = true ∧ tail.all Utf8.isAscii = true)
    (hstart : tail.head? = some 60) (hend : ∀ t ∈ terminators, ¬ t <:+: tail) :
    elementTexts name (head ++ (content ++ tail)) = some [content] ↔ Plain content := by
  have hvalid : Utf8.valid (head ++ (content ++ tail)) = Utf8.valid content := by
    have hne : tail ≠ [] := by
      rintro rfl
      exact absurd hstart (by simp)
    rw [Utf8.valid_append_left hascii.1, Utf8.valid_append_right content hascii.2 hne]
  rw [elementTexts_eq_some_iff, hvalid]
  constructor
  · rintro ⟨hvalid, is, hlexes, hread⟩
    obtain ⟨is', rfl, hbehind⟩ := (hhead _ _).mp hlexes
    obtain ⟨cs, ts', rfl, hlast, hlength, hplain⟩ := hbehind.split hstart hend rfl
    obtain rfl := (htail.lexes_iff ts').mp hlast
    obtain ⟨st, hst, hread⟩ := read_append.mp hread
    obtain rfl := Option.some.inj (hopen.symm.trans hst)
    obtain ⟨st, hcs, hread⟩ := read_append.mp hread
    obtain ⟨st', hstop, hread⟩ := read_cons.mp hread
    have htracked : Tracked name (data cs) st := (Tracked.opened houter).read hcs
    -- The tail closes an element of the name, and nothing else has been found.
    cases st.takes_of_next hstop with
    | @stop _ text _ hstack =>
      rw [if_pos rfl] at hread
      obtain ⟨more, hmore⟩ := found_read hread
      have hnone : st.found = [] ∧ text = content := by
        dsimp only at hmore
        cases hfirst : st.found with
        | nil =>
          rw [hfirst] at hmore
          exact ⟨rfl, (List.cons.inj hmore).1⟩
        | cons t found =>
          rw [hfirst] at hmore
          have hlengths := congrArg List.length hmore
          simp at hlengths
      obtain ⟨-, rfl⟩ := hnone
      have hsub : text.Sublist (data cs) :=
        htracked (name, text) (hstack ▸ List.mem_cons_self) rfl
      have hdata : data cs = text := (hsub.eq_of_length_le hlength).symm
      obtain ⟨hunmarked, hunended⟩ := hplain hdata
      exact ⟨hvalid, hunmarked, hunended⟩
  · intro hplain
    refine ⟨hplain.valid, his ++ (content.map (fun b => Item.data [b]) ++ .stop name :: ts),
      (hhead _ _).mpr ⟨_, rfl, hplain.lexes hstart ((htail.lexes_iff _).mpr rfl)⟩, ?_⟩
    refine read_append.mpr ⟨_, hopen, read_append.mpr ⟨_, read_data content, ?_⟩⟩
    refine read_cons.mpr ⟨{ stack := outer, found := [content], rooted := true }, ?_, ?_⟩
    · simp [Reading.next]
    · have hframe := read_behind name [content]
        { stack := outer, found := [], rooted := true } ts
      rw [hclose] at hframe
      exact hframe

end WowProxy.Lib.XmlReader
