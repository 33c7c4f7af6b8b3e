import CallGrammar.Chain.Trace
import CallGrammar.Text.Ansi

namespace CallGrammar

def Lacks (c : Char) (text : String) : Prop := c ∉ text.toList

instance (c : Char) (text : String) : Decidable (Lacks c text) := inferInstanceAs (Decidable (_ ∉ _))

theorem append_cons_cancel {α : Type} {a : α} {xs ys us vs : List α} (hx : a ∉ xs) (hy : a ∉ ys)
    (h : xs ++ a :: us = ys ++ a :: vs) : xs = ys ∧ us = vs := by
  rcases List.append_eq_append_iff.mp h with ⟨zs, rfl, hzs⟩ | ⟨zs, rfl, hzs⟩
  · cases zs with
    | nil => exact ⟨by simp, (List.cons.inj hzs).2⟩
    | cons z zs =>
      obtain ⟨rfl, _⟩ := List.cons.inj hzs
      simp at hy
  · cases zs with
    | nil => exact ⟨by simp, (List.cons.inj hzs).2.symm⟩
    | cons z zs =>
      obtain ⟨rfl, _⟩ := List.cons.inj hzs
      simp at hx

theorem eq_of_toString_eq {i j : Nat} (h : toString i = toString j) : i = j := by
  have hvalue := congrArg (fun text => Nat.ofDigitChars 10 text.toList 0) h
  simpa [Nat.toString_eq_ofList_toDigits] using hvalue

theorem Dfa.stateLabel_inj {i j : StateId} (h : Dfa.stateLabel i = Dfa.stateLabel j) : i = j :=
  eq_of_toString_eq ((String.append_right_inj _).mp h)

namespace Lacks

variable {c : Char} {t u : String}

theorem append (ht : Lacks c t) (hu : Lacks c u) : Lacks c (t ++ u) := by
  rw [Lacks, String.toList_append, List.mem_append]
  exact not_or_intro ht hu

theorem intercalate {texts : List String} (ht : Lacks c t) (h : ∀ u ∈ texts, Lacks c u) :
    Lacks c (t.intercalate texts) := by
  induction texts with
  | nil =>
    rw [String.intercalate_nil, Lacks, String.toList_empty]
    exact List.not_mem_nil
  | cons u texts ih =>
    obtain ⟨hu, htexts⟩ := List.forall_mem_cons.mp h
    cases texts with
    | nil => rwa [String.intercalate_singleton]
    | cons u' texts =>
      rw [String.intercalate_cons_cons]
      exact (hu.append ht).append (ih htexts)

theorem toString_nat (hdigit : c.isDigit = false) (i : Nat) : Lacks c (toString i) := by
  intro hmem
  have hdigits : c ∈ Nat.toDigits 10 i := by rwa [← Nat.toList_repr]
  have hisDigit := Nat.isDigit_of_mem_toDigits (by decide) (by decide) hdigits
  rw [hdigit] at hisDigit
  cases hisDigit

theorem stateLabel (hc : Lacks c "S") (hdigit : c.isDigit = false) (i : StateId) : Lacks c (Dfa.stateLabel i) :=
  append hc (toString_nat hdigit i)

end Lacks

@[simp] def Palette.codes (p : Palette) : List String := [p.state, p.accept, p.error, p.dim, p.reset]

namespace Ansi

def Veils (coloured plain : String) : Prop :=
  ∀ rest, stripFrom .text (coloured.toList ++ rest) = plain.toList ++ stripFrom .text rest

namespace Veils

variable {s s' t t' : String}

theorem append (h : Veils s t) (h' : Veils s' t') : Veils (s ++ s') (t ++ t') := by
  intro rest
  rw [String.toList_append, List.append_assoc, h, h', String.toList_append, List.append_assoc]

theorem of_lacks (h : Lacks escape t) : Veils t t := by
  intro rest
  rw [Lacks] at h
  generalize t.toList = cs at h
  induction cs with
  | nil => rfl
  | cons c cs ih =>
    rw [List.mem_cons, not_or] at h
    rw [List.cons_append, stripFrom, if_neg (Ne.symm h.1), ih h.2, List.cons_append]

theorem strip_eq (h : Veils s t) : strip s = t := by
  have hs := h []
  rw [List.append_nil, stripFrom, List.append_nil] at hs
  rw [strip, hs, String.ofList_toList]

theorem of_mem_codes (h : s ∈ Palette.ansi.codes) : Veils s "" := by
  intro rest
  simp only [Palette.codes, Palette.ansi, List.mem_cons, List.not_mem_nil, or_false] at h
  rcases h with rfl | rfl | rfl | rfl | rfl <;> simp [stripFrom, escape, isFinal]

theorem paint (hcode : s ∈ Palette.ansi.codes) (h : Veils t t') :
    Veils (Palette.ansi.paint s t) (Palette.plain.paint "" t') :=
  ((of_mem_codes hcode).append h).append (of_mem_codes (by simp))

theorem stateLabel (i : StateId) :
    Veils (Palette.ansi.paintState (Dfa.stateLabel i)) (Palette.plain.paintState (Dfa.stateLabel i)) :=
  .paint (by simp) (.of_lacks (.stateLabel (by decide) (by decide) i))

theorem acceptMark (isFinal : Bool) : Veils (Palette.ansi.acceptMark isFinal) (Palette.plain.acceptMark isFinal) := by
  cases isFinal with
  | true => exact append (.of_lacks (by decide)) (.paint (by simp) (.of_lacks (by decide)))
  | false => exact .of_lacks (by decide)

end Veils

end Ansi

def Event.texts : Event → List String
  | .called _ callable => [callable]
  | .moved _ term _ => [term.text]
  | .resting _ _ expected => expected
  | .rejected _ callable error => [callable, error.message]
  | .built .. => []

open Ansi (Veils escape)

theorem Event.veils_line {e : Event} (h : ∀ text ∈ e.texts, Lacks escape text) : Veils (e.line .ansi) (e.line .plain) := by
  have hblank : Veils " " " " := .of_lacks (by decide)
  have hpainted : ∀ code text : String, code ∈ Palette.ansi.codes → Lacks escape text →
      Veils (Palette.ansi.paint code text) (Palette.plain.paint "" text) :=
    fun _ _ hcode htext => .paint hcode (.of_lacks htext)
  cases e with
  | called state callable =>
    have hcall : Veils " call " " call " := .of_lacks (by decide)
    have hcallable : Lacks escape callable := h callable List.mem_cons_self
    exact ((Veils.stateLabel state).append hcall).append (.of_lacks hcallable)
  | moved source term target =>
    have hdashes := hpainted Palette.ansi.dim "--" (by simp) (by decide)
    have harrow := hpainted Palette.ansi.dim "-->" (by simp) (by decide)
    have hterm : Lacks escape term.text := h term.text List.mem_cons_self
    have hleft := ((Veils.stateLabel source).append hblank).append hdashes
    have hmiddle := ((hleft.append hblank).append (.of_lacks hterm)).append hblank
    exact ((hmiddle.append harrow).append hblank).append (.stateLabel target)
  | resting state isFinal expected =>
    have hindent : Veils "  " "  " := .of_lacks (by decide)
    have hopening : Veils " [" " [" := .of_lacks (by decide)
    have hclosing : Veils "]" "]" := .of_lacks (by decide)
    have hexpects := hpainted Palette.ansi.dim "expects" (by simp) (by decide)
    have hnames : Lacks escape (", ".intercalate expected) := .intercalate (by decide) h
    have hstate := (hindent.append (.stateLabel state)).append (.acceptMark isFinal)
    exact ((((hstate.append hblank).append hexpects).append hopening).append (.of_lacks hnames)).append hclosing
  | rejected state callable error =>
    have hcolon : Veils ": " ": " := .of_lacks (by decide)
    have hreject := hpainted Palette.ansi.error "reject" (by simp) (by decide)
    have hcallable : Lacks escape callable := h callable List.mem_cons_self
    have hmessage : Lacks escape error.message := h error.message (by simp [texts])
    have hleft := (((Veils.stateLabel state).append hblank).append hreject).append hblank
    exact ((hleft.append (.of_lacks hcallable)).append hcolon).append (.of_lacks hmessage)
  | built state accepted =>
    have hstate := (Veils.stateLabel state).append hblank
    cases accepted with
    | true => exact hstate.append (hpainted Palette.ansi.accept "build" (by simp) (by decide))
    | false => exact hstate.append (hpainted Palette.ansi.error "build rejected" (by simp) (by decide))

end CallGrammar
