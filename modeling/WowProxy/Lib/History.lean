/-
  Lib/History.lean --- logs of events, each judged by the events before it.

  A discipline on the use of resources says of every event what must have happened
  first.  `Always P log` says it for a whole log; a log is built at its end, so
  `always_concat` is the rule every proof uses.
-/

set_option autoImplicit false

namespace WowProxy.Lib.History

universe u

variable {α : Type u}

/-- Every event of the log meets `P` with the events before it. -/
def Always (P : List α → α → Prop) (log : List α) : Prop :=
  ∀ before e, before ++ [e] <+: log → P before e

theorem always_nil (P : List α → α → Prop) : Always P [] := by
  intro before e hpre
  exact absurd (List.prefix_nil.mp hpre) (by simp)

/-- The first events of a log. -/
theorem Always.mono {P : List α → α → Prop} {log log' : List α} (h : Always P log)
    (hlog : log' <+: log) : Always P log' :=
  fun before e hpre => h before e (hpre.trans hlog)

/-- One more event. -/
theorem always_concat {P : List α → α → Prop} {log : List α} {e : α} :
    Always P (log ++ [e]) ↔ Always P log ∧ P log e := by
  constructor
  · intro h
    exact ⟨h.mono (List.prefix_append log [e]), h log e (List.prefix_refl _)⟩
  · rintro ⟨hlog, he⟩ before e' hpre
    rcases List.prefix_concat_iff.mp hpre with heq | hpre
    · obtain ⟨rfl, hsingle⟩ := List.append_inj' heq rfl
      obtain rfl := List.singleton_inj.mp hsingle
      exact he
    · exact hlog before e' hpre

end WowProxy.Lib.History
