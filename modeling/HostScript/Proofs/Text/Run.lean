import HostScript.Text.Bytes
import Mathlib.Data.List.Basic

set_option autoImplicit false

namespace HostScript

variable {α : Type} {p : α → Bool} {run rest front l : List α}

/-- The elements with the property that a list begins with, and what follows them. -/
structure IsRun (p : α → Bool) (run rest : List α) : Prop where
  all : ∀ a ∈ run, p a = true
  ends : ∀ a ∈ rest.head?, p a = false

/-- What comes before the elements with the property that a list ends with, and those elements. -/
structure IsLastRun (p : α → Bool) (front run : List α) : Prop where
  all : ∀ a ∈ run, p a = true
  ends : ∀ a ∈ front.getLast?, p a = false

namespace IsRun

theorem of_cons {a : α} (hall : ∀ a ∈ run, p a = true) (ha : p a = false) : IsRun p run (a :: rest) :=
  ⟨hall, fun _ hb => Option.some.inj hb ▸ ha⟩

theorem takeWhile (h : IsRun p run rest) : (run ++ rest).takeWhile p = run := by
  rw [List.takeWhile_append_of_pos h.all]
  cases rest with
  | nil => simp
  | cons a rest => simp [h.ends a rfl]

theorem dropWhile (h : IsRun p run rest) : (run ++ rest).dropWhile p = rest := by
  rw [List.dropWhile_append_of_pos h.all]
  cases rest with
  | nil => rfl
  | cons a rest => simp [h.ends a rfl]

end IsRun

theorem exists_isRun (p : α → Bool) (l : List α) : ∃ run rest, l = run ++ rest ∧ IsRun p run rest := by
  refine ⟨l.takeWhile p, l.dropWhile p, List.takeWhile_append_dropWhile.symm, ⟨?_, ?_⟩⟩
  · exact fun a ha => List.all_eq_true.mp List.all_takeWhile a ha
  · intro a ha
    have hnot := List.head?_dropWhile_not p l
    rw [ha] at hnot
    simpa using hnot

theorem IsLastRun.reverse (h : IsLastRun p front run) : IsRun p run.reverse front.reverse :=
  ⟨fun a ha => h.all a (List.mem_reverse.mp ha), fun a ha => h.ends a (List.head?_reverse ▸ ha)⟩

theorem exists_isLastRun (p : α → Bool) (l : List α) :
    ∃ front run, l = front ++ run ∧ IsLastRun p front run := by
  obtain ⟨run, front, hsplit, hrun⟩ := exists_isRun p l.reverse
  refine ⟨front.reverse, run.reverse, ?_, ⟨fun a ha => hrun.all a (List.mem_reverse.mp ha), ?_⟩⟩
  · rw [← List.reverse_append, ← hsplit, List.reverse_reverse]
  · exact fun a ha => hrun.ends a (List.getLast?_reverse ▸ ha)

theorem IsLastRun.dropRightWhile {p : UInt8 → Bool} {front run : Bytes} (h : IsLastRun p front run) :
    (front ++ run).dropRightWhile p = front := by
  rw [Bytes.dropRightWhile, List.reverse_append, h.reverse.dropWhile, List.reverse_reverse]

namespace Bytes

theorem split_at_first {sep : UInt8} {as as' bs bs' : Bytes} (h : sep ∉ as) (h' : sep ∉ as')
    (heq : as ++ sep :: bs = as' ++ sep :: bs') : as = as' ∧ bs = bs' := by
  have htake {xs ys : Bytes} (hx : sep ∉ xs) : (xs ++ sep :: ys).takeWhile (· != sep) = xs :=
    (IsRun.of_cons (fun b hb => bne_iff_ne.mpr (ne_of_mem_of_not_mem hb hx)) (bne_self_eq_false sep)).takeWhile
  obtain rfl : as = as' := by rw [← htake h, heq, htake h']
  simpa using heq

theorem split_at_last {sep : UInt8} {as as' bs bs' : Bytes} (h : sep ∉ bs) (h' : sep ∉ bs')
    (heq : as ++ sep :: bs = as' ++ sep :: bs') : bs = bs' := by
  have hreverse := congrArg List.reverse heq
  simp only [List.reverse_append, List.reverse_cons, List.append_assoc, List.singleton_append] at hreverse
  exact List.reverse_injective (split_at_first (by simpa using h) (by simpa using h') hreverse).1

end Bytes

end HostScript
