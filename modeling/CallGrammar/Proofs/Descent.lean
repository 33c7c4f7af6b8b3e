import CallGrammar.Expr.Descent
import CallGrammar.Proofs.Reader
import CallGrammar.Proofs.Segments

namespace CallGrammar

structure Located (source : String) (ts : List Token) : Prop where
  slice?_eq {t : Token} : t ∈ ts → t.span.slice? source = some t.text
  start_le {name colon callable : Token} : [name, colon, callable] <:+: ts → name.kind = .ident → colon.kind = .colon →
    callable.kind = .ident → name.span.start ≤ callable.span.stop

def Sliced (source : String) (ts : List Token) : Prop := ∀ t ∈ ts, t.text = t.span.slice source

structure Guarded (broken : Prop) (source : String) (ts : List Token) : Prop where
  slice? {t : Token} : t ∈ ts → t.span.slice? source = some t.text ∨ broken ∧ t.span.slice? source = none
  cover? {name colon callable : Token} : [name, colon, callable] <:+: ts → name.kind = .ident → colon.kind = .colon →
    callable.kind = .ident → name.span.cover? callable.span = some (name.span.cover callable.span) ∨
      broken ∧ name.span.cover? callable.span = none

section

variable {broken : Prop} {source : String} {ts us : List Token}

theorem Guarded.right (h : Guarded broken source (ts ++ us)) : Guarded broken source us where
  slice? hu := h.slice? (List.mem_append_right ts hu)
  cover? hplace := h.cover? (hplace.trans (List.suffix_append ts us).isInfix)

theorem Located.guarded (h : Located source ts) : Guarded False source ts where
  slice? ht := .inl (h.slice?_eq ht)
  cover? hplace hname hcolon hcallable := .inl (if_pos (h.start_le hplace hname hcolon hcallable))

theorem Sliced.guarded (h : Sliced source ts) : Guarded True source ts where
  slice? {t} ht := by
    rw [Span.slice?, h t ht]
    split <;> simp
  cover? _ _ _ _ := by
    rw [Span.cover?]
    split <;> simp

theorem located_lex (hsize : source.utf8ByteSize < UInt32.size) : Located source (lex source) where
  slice?_eq ht := by
    have hstands := standsIn_of_mem_lex hsize ht
    rw [Span.slice?, if_pos hstands.inText, hstands.text_eq]
  start_le {name colon callable} hplace _ _ _ := by
    have hordered := (splits_lex hsize).ordered.sublist hplace.sublist
    have hname := (standsIn_of_mem_lex hsize (hplace.subset (by simp) : name ∈ lex source)).start_lt
    have hcallable := (standsIn_of_mem_lex hsize (hplace.subset (by simp) : callable ∈ lex source)).start_lt
    have hle : name.span.stop ≤ callable.span.start := List.rel_of_pairwise_cons hordered (by simp)
    omega

theorem sliced_lex (source : String) : Sliced source (lex source) := by
  intro t ht
  obtain ⟨u, _, rfl⟩ := List.mem_map.mp ht
  rfl

end

namespace Parser.State

variable {limit : Option Nat} {stop : Nat} {s s' : State} {t : Token} {ts : List Token} {e : ParseError}

def answer (limit : Option Nat) (stop : Nat) (s : State) (ts : List Token) : Except ParseError Parsed :=
  match s.run limit ts with
  | .ok s => s.finish stop
  | .error e => .error e

theorem answer_cons_of_ok (h : s.step limit t = .ok s') : s.answer limit stop (t :: ts) = s'.answer limit stop ts := by
  rw [answer, run, h]
  rfl

theorem answer_cons_of_error (h : s.step limit t = .error e) : s.answer limit stop (t :: ts) = .error e := by
  rw [answer, run, h]

theorem between_of_nothing (h : s.pending = .nothing) : s.Between := by
  simp [Between, h]

theorem step_of_nothing (h : s.pending = .nothing) : s.step limit t = s.begin limit t := by
  simp [step, h, settleName, settleAtom, quantify?]

theorem finish_congr (hs : s.Between) (hs' : s'.Between) (h : s.settle = s'.settle) (stop : Nat) :
    s.finish stop = s'.finish stop := by
  rw [finish, finish, h]
  cases hpending : s.pending with
  | colon name => exact absurd hpending (hs name)
  | nothing | name | atom =>
    cases hpending' : s'.pending with
    | colon name => exact absurd hpending' (hs' name)
    | nothing | name | atom => rfl

theorem answer_settleName {name : Token} (h : s.pending = .name name) (hts : ∀ t ∈ ts.head?, t.kind ≠ .colon) :
    s.answer limit stop ts = s.settleName.answer limit stop ts := by
  have hsettled : s.settleName.settleName = s.settleName := by simp [settleName, h, occur]
  have hbetween : s.Between := by simp [Between, h]
  have hbetween' : s.settleName.Between := by simp [Between, settleName, h, occur]
  cases ts with
  | nil => exact finish_congr hbetween hbetween' (by rw [settle, settle, hsettled]) stop
  | cons t ts =>
    have hstep : s.step limit t = s.settleName.step limit t := by
      rw [step_of_between hbetween (hts t rfl), step_of_between hbetween' (hts t rfl), settle, settle, hsettled]
    rw [answer, answer, run, run, hstep]

theorem answer_settleAtom {atom : Expr Occurrence} (h : s.pending = .atom atom)
    (hts : ∀ t ∈ ts.head?, quantifier? t.kind atom = none) : s.answer limit stop ts = s.settleAtom.answer limit stop ts := by
  have hname : s.settleName = s := by simp [settleName, h]
  have hpending : s.settleAtom.pending = .nothing := by simp [settleAtom, h]
  cases ts with
  | nil =>
    refine finish_congr (by simp [Between, h]) (between_of_nothing hpending) ?_ stop
    rw [settle_eq_self hpending, settle, hname]
  | cons t ts =>
    have hstep : s.step limit t = s.settleAtom.step limit t := by
      rw [step_of_nothing hpending]
      simp [step, h, hname, quantify?, hts t rfl]
    rw [answer, answer, run, run, hstep]

theorem answer_nil (h : s.pending = .nothing) : s.answer limit stop [] =
    if s.current.items.isEmpty then .error (.malformed (.point stop) (.expectedTerm none))
    else
      match s.outer with
      | [] => .ok ⟨s.current.expr, s.terms⟩
      | (opened, _) :: _ => .error (.malformed (.point stop) (.unclosedGroup opened)) := by
  obtain ⟨terms, outer, current, pending⟩ := s
  obtain rfl : pending = .nothing := h
  rfl

theorem answer_nil_of_open {opened : Span} {enclosing : Branches} {outer : List (Span × Branches)}
    (h : s.pending = .nothing) (hitems : s.current.items ≠ []) (houter : s.outer = (opened, enclosing) :: outer) :
    s.answer limit stop [] = .error (.malformed (.point stop) (.unclosedGroup opened)) := by
  simp [answer_nil h, hitems, houter]

theorem answer_close {opened : Span} {enclosing : Branches} {outer : List (Span × Branches)} (h : s.pending = .nothing)
    (ht : t.kind = .parenClose) (hitems : s.current.items ≠ []) (houter : s.outer = (opened, enclosing) :: outer) :
    s.answer limit stop (t :: ts) =
      answer limit stop { s with outer, current := enclosing, pending := .atom s.current.expr } ts := by
  refine answer_cons_of_ok ?_
  simp [step_of_nothing h, begin, ht, hitems, houter]

end Parser.State

open CallGrammar.Parser (State Branches)

namespace Descent

open CallGrammar.Parser.State

def Attempt.Ends {α : Type} (broken : Prop) (x : Attempt α) (refused : ParseError → Prop) (done : α → Prop) : Prop :=
  match x.run with
  | none => broken
  | some (.error e) => refused e
  | some (.ok a) => done a

namespace Attempt.Ends

variable {α β : Type} {broken : Prop} {x : Attempt α} {f : α → Attempt β} {refused refused' : ParseError → Prop}
  {P P' : α → Prop} {Q : β → Prop}

theorem bind (h : x.Ends broken refused P) (hf : ∀ a, P a → (f a).Ends broken refused Q) :
    Attempt.Ends broken (x >>= f) refused Q := by
  rcases x with _ | e | a
  · exact h
  · exact h
  · exact hf a h

theorem imp (h : x.Ends broken refused P) (he : ∀ e, refused e → refused' e) (ha : ∀ a, P a → P' a) :
    x.Ends broken refused' P' := by
  rcases x with _ | e | a
  · exact h
  · exact he e h
  · exact ha a h

theorem run_eq {answer : Except ParseError α}
    (h : x.Ends broken (fun e => answer = .error e) (fun a => answer = .ok a)) :
    x.run = some answer ∨ broken ∧ x.run = none := by
  rcases x with _ | e | a
  · exact .inr ⟨h, rfl⟩
  · exact .inl (congrArg some h.symm)
  · exact .inl (congrArg some h.symm)

theorem lift {o : Option α} {a : α} (h : o = some a ∨ broken ∧ o = none) (refused : ParseError → Prop) :
    Attempt.Ends broken (liftM o) refused (· = a) := by
  rcases h with rfl | ⟨h, rfl⟩
  · exact rfl
  · exact h

end Attempt.Ends

namespace Cursor

variable {c : Cursor} {t : Token} {ts : List Token}

theorem bump?_eq_none_iff : c.bump? = none ↔ c.ahead = [] := by
  rcases c with ⟨_ | ⟨t, ts⟩, terms, depth⟩ <;> simp [bump?]

theorem ahead_of_bump? {r : Reading Token c} (h : c.bump? = some r) : c.ahead = r.value :: r.next.ahead ∧
    r.next.terms = c.terms ∧ r.next.depth = c.depth := by
  rcases c with ⟨_ | ⟨t, ts⟩, terms, depth⟩
  · cases h
  · obtain rfl := Option.some.inj h
    exact ⟨rfl, rfl, rfl⟩

theorem eat?_eq_none {kind : TokenKind} (h : c.eat? kind = none) : ∀ t ∈ c.ahead.head?, t.kind ≠ kind := by
  rcases c with ⟨_ | ⟨t, ts⟩, terms, depth⟩
  · exact nofun
  · intro u hu
    obtain rfl := Option.some.inj hu
    simpa [eat?, bump?, Option.filter] using h

theorem ahead_of_eat? {kind : TokenKind} {r : Reading Token c} (h : c.eat? kind = some r) : r.value.kind = kind ∧
    c.ahead = r.value :: r.next.ahead ∧ r.next.terms = c.terms ∧ r.next.depth = c.depth := by
  obtain ⟨hbump, hkind⟩ := Option.filter_eq_some_iff.mp h
  exact ⟨by simpa using hkind, ahead_of_bump? hbump⟩

theorem place_of_ahead_eq_nil (h : c.ahead = []) (source : String) : c.place source = .point (endOffset source) := by
  rw [place, bump?_eq_none_iff.mpr h]

theorem place_of_ahead_eq_cons (h : c.ahead = t :: ts) (source : String) : c.place source = t.span := by
  rcases c with ⟨_, terms, depth⟩
  obtain rfl : _ = t :: ts := h
  rfl

end Cursor

section

variable {broken : Prop} {limit : Option Nat} {source : String} {s : State} {c : Cursor}

structure Follows (s : State) (c : Cursor) : Prop where
  pending_eq : s.pending = .nothing
  terms_eq : s.terms = c.terms
  length_eq : s.outer.length = c.depth

def Refuses (limit : Option Nat) (source : String) (s : State) (c : Cursor) (e : ParseError) : Prop :=
  s.answer limit (endOffset source) c.ahead = .error e

def GoesOn (limit : Option Nat) (source : String) (s : State) (c : Cursor) (s' : State) (c' : Cursor) : Prop :=
  c'.depth = c.depth ∧ s.answer limit (endOffset source) c.ahead = s'.answer limit (endOffset source) c'.ahead

theorem Refuses.of_goesOn {s' : State} {c' : Cursor} {e : ParseError} (h : GoesOn limit source s c s' c')
    (he : Refuses limit source s' c' e) : Refuses limit source s c e := h.2.trans he

theorem GoesOn.trans {s' s'' : State} {c' c'' : Cursor} (h : GoesOn limit source s c s' c')
    (h' : GoesOn limit source s' c' s'' c'') : GoesOn limit source s c s'' c'' := ⟨h'.1.trans h.1, h.2.trans h'.2⟩

theorem goesOn_of_step {s' : State} {r : Reading Token c} (h : c.ahead = r.value :: r.next.ahead)
    (hdepth : r.next.depth = c.depth) (hstep : s.step limit r.value = .ok s') : GoesOn limit source s c s' r.next := by
  refine ⟨hdepth, ?_⟩
  rw [h, answer_cons_of_ok hstep]

theorem refuses_of_colon {name : Token} (hs : s.pending = .colon name) (h : ∀ t ∈ c.ahead.head?, t.kind ≠ .ident) :
    Refuses limit source s c (.malformed (c.place source) (.expectedAlias name.text name.span)) := by
  rw [Refuses]
  cases hahead : c.ahead with
  | nil =>
    rw [Cursor.place_of_ahead_eq_nil hahead]
    simp [answer, run, finish, hs]
  | cons t ts =>
    rw [Cursor.place_of_ahead_eq_cons hahead]
    rw [hahead] at h
    refine answer_cons_of_error ?_
    have hother := h t rfl
    rw [step]
    split <;> simp_all

def atomState (s : State) {c : Cursor} (r : Reading (Expr Occurrence) c) : State :=
  { s with terms := r.next.terms, pending := .atom r.value }

theorem reference_ends (hs : Follows s c) (hc : Guarded broken source c.ahead) {name : Reading Token c}
    (hname : c.bump? = some name) (hkind : name.value.kind = .ident) :
    (reference source name).Ends broken (Refuses limit source s c) fun r =>
      GoesOn limit source s c (atomState s r) r.next := by
  obtain ⟨hahead, hterms, hdepth⟩ := Cursor.ahead_of_bump? hname
  have hnamed : GoesOn limit source s c { s with pending := .name name.value } name.next :=
    goesOn_of_step hahead hdepth (by rw [step_of_nothing hs.pending_eq, begin, hkind])
  rw [hahead] at hc
  refine (Attempt.Ends.lift (hc.slice? List.mem_cons_self) _).bind ?_
  rintro _ rfl
  cases hcolon : name.next.eat? .colon with
  | none =>
    refine hnamed.trans ⟨rfl, ?_⟩
    rw [answer_settleName rfl (Cursor.eat?_eq_none hcolon)]
    simp [settleName, occur, atomState, occurrence, hterms, hs.terms_eq]
  | some colon =>
    obtain ⟨hkind', hahead', hterms', hdepth'⟩ := Cursor.ahead_of_eat? hcolon
    have hcoloned : GoesOn limit source s c { s with pending := .colon name.value } colon.next :=
      hnamed.trans (goesOn_of_step hahead' hdepth' (by simp [step, hkind']))
    dsimp only
    cases hcallable : colon.next.eat? .ident with
    | none => exact Refuses.of_goesOn hcoloned (refuses_of_colon rfl (Cursor.eat?_eq_none hcallable))
    | some callable =>
      obtain ⟨hkind'', hahead'', hterms'', hdepth''⟩ := Cursor.ahead_of_eat? hcallable
      rw [hahead', hahead''] at hc
      refine (Attempt.Ends.lift (hc.slice? (t := callable.value) (by simp)) _).bind ?_
      rintro _ rfl
      refine (Attempt.Ends.lift (hc.cover? ⟨[], _, rfl⟩ hkind hkind' hkind'') _).bind ?_
      rintro _ rfl
      refine hcoloned.trans (goesOn_of_step hahead'' hdepth'' ?_)
      simp [step, hkind'', occur, atomState, occurrence, hterms, hterms', hterms'', hs.terms_eq]

def itemState (s : State) {c : Cursor} (r : Reading (Expr Occurrence) c) : State :=
  { s with terms := r.next.terms, current := s.current.push r.value }

def itemsState (s : State) {c : Cursor} (r : Reading (List (Expr Occurrence)) c) : State :=
  { s with terms := r.next.terms, current := ⟨s.current.done, r.value.reverse ++ s.current.items⟩ }

structure Closes (limit : Option Nat) (source : String) (s : State) (c : Cursor)
    (r : Reading (List (Expr Occurrence)) c) (b : Branches) : Prop where
  goesOn : GoesOn limit source s c { s with terms := r.next.terms, current := b } r.next
  items_ne_nil : b.items ≠ []
  expr_eq : b.expr = .alt (s.current.done.reverse ++ r.value)
  kind_eq {t : Token} : t ∈ r.next.ahead.head? → t.kind = .parenClose

def AlternationEnds (broken : Prop) (limit : Option Nat) (source : String) (c : Cursor) : Prop :=
  ∀ s, Follows s c → Guarded broken source c.ahead → s.current.items = [] →
    (alternation limit source c).Ends broken (Refuses limit source s c) fun r => ∃ b, Closes limit source s c r b

def SequenceEnds (broken : Prop) (limit : Option Nat) (source : String) (c : Cursor) : Prop :=
  ∀ s, Follows s c → Guarded broken source c.ahead → (c.atEnd = true → s.current.items = []) →
    (sequence limit source c).Ends broken (Refuses limit source s c) fun r =>
      GoesOn limit source s c (itemsState s r) r.next ∧ r.value ≠ [] ∧ r.next.atEnd = true

theorem Cursor.Before.guarded {c' : Cursor} (h : c.Before c') (hc : Guarded broken source c.ahead) :
    Guarded broken source c'.ahead := by
  obtain ⟨ts, _, hts⟩ := h
  rw [hts] at hc
  exact hc.right

theorem group_ends (hs : Follows s c) (hc : Guarded broken source c.ahead) {opened : Reading Token c}
    (hopened : c.bump? = some opened) (hkind : opened.value.kind = .parenOpen)
    (ih : AlternationEnds broken limit source opened.next.enter) :
    (group limit source opened).Ends broken (Refuses limit source s c) fun r =>
      GoesOn limit source s c (atomState s r) r.next := by
  obtain ⟨hahead, hterms, hdepth⟩ := Cursor.ahead_of_bump? hopened
  have hbegin : s.step limit opened.value = s.begin limit opened.value := step_of_nothing hs.pending_eq
  rw [begin, hkind, hs.length_eq, ← hdepth] at hbegin
  rw [group]
  by_cases hlimit : limit.any (· ≤ opened.next.depth) = true
  · rw [if_pos hlimit]
    simp only [if_pos hlimit] at hbegin
    exact (congrArg _ hahead).trans (answer_cons_of_error hbegin)
  · rw [if_neg hlimit]
    simp only [if_neg hlimit] at hbegin
    have hentered : s.answer limit (endOffset source) c.ahead =
        (s.entered opened.value.span).answer limit (endOffset source) opened.next.ahead := by
      rw [hahead]
      exact answer_cons_of_ok hbegin
    have hfollows : Follows (s.entered opened.value.span) opened.next.enter :=
      ⟨hs.pending_eq, hs.terms_eq.trans hterms.symm, by simp [entered, Cursor.enter, hs.length_eq, hdepth]⟩
    refine ((ih _ hfollows (opened.before.guarded hc) rfl).imp (fun _ he => hentered.trans he) fun _ hr => hr).bind ?_
    rintro inner ⟨b, hinner⟩
    have hread := hentered.trans hinner.goesOn.2
    cases hclose : inner.next.leave.eat? .parenClose with
    | none =>
      have hnil : inner.next.ahead = [] := by
        rw [← List.head?_eq_none_iff, Option.eq_none_iff_forall_not_mem]
        exact fun t ht => Cursor.eat?_eq_none hclose t ht (hinner.kind_eq ht)
      refine hread.trans ?_
      rw [hnil, Cursor.place_of_ahead_eq_nil hnil]
      exact answer_nil_of_open hs.pending_eq hinner.items_ne_nil rfl
    | some closed =>
      obtain ⟨hkind', hahead', hterms', hdepth'⟩ := Cursor.ahead_of_eat? hclose
      refine ⟨?_, hread.trans ?_⟩
      · have hinnerDepth : inner.next.depth = opened.next.depth + 1 := hinner.goesOn.1
        have hleft : closed.next.depth = inner.next.depth - 1 := hdepth'
        exact hleft.trans (by omega)
      · have hrest : inner.next.ahead = closed.value :: closed.next.ahead := hahead'
        rw [hrest]
        refine (answer_close ?_ hkind' ?_ rfl).trans ?_
        · exact hs.pending_eq
        · exact hinner.items_ne_nil
        · simp only [hinner.expr_eq, atomState, hterms']
          rfl

theorem atom_ends (hs : Follows s c) (hc : Guarded broken source c.ahead) (hend : c.atEnd = true → s.current.items = [])
    (ih : ∀ c', c.Before c' → AlternationEnds broken limit source c') :
    (atom limit source c).Ends broken (Refuses limit source s c) fun r =>
      GoesOn limit source s c (atomState s r) r.next := by
  rw [atom]
  cases hbump : c.bump? with
  | none =>
    have hitems : s.current.items = [] := hend (by rw [Cursor.atEnd, hbump])
    have hahead : c.ahead = [] := Cursor.bump?_eq_none_iff.mp hbump
    refine (congrArg _ hahead).trans ?_
    rw [answer_nil hs.pending_eq, hitems, Cursor.place_of_ahead_eq_nil hahead]
    rfl
  | some t =>
    obtain ⟨hahead, _, _⟩ := Cursor.ahead_of_bump? hbump
    have hother (h : s.begin limit t.value = .error (.malformed t.value.span (.expectedTerm (some t.value.kind)))) :
        Refuses limit source s c (.malformed t.value.span (.expectedTerm (some t.value.kind))) := by
      rw [Refuses, hahead]
      exact answer_cons_of_error ((step_of_nothing hs.pending_eq).trans h)
    have hclosed (h : t.value.kind = .parenClose ∨ t.value.kind = .pipe) : s.current.items = [] := by
      refine hend ?_
      rw [Cursor.atEnd, hbump]
      simpa using h
    dsimp only
    cases hkind : t.value.kind with
    | ident => exact reference_ends hs hc hbump hkind
    | parenOpen => exact group_ends hs hc hbump hkind (ih _ t.before)
    | parenClose | pipe =>
      rw [hkind] at hother
      exact hother (by rw [begin, hkind]; simp [hclosed, hkind])
    | colon | star | plus | question | whitespace | garbage =>
      rw [hkind] at hother
      exact hother (by rw [begin, hkind])

theorem settleAtom_atomState (hs : s.pending = .nothing) (r : Reading (Expr Occurrence) c) :
    (atomState s r).settleAtom = itemState s r := by
  simp [settleAtom, atomState, itemState, hs]

theorem GoesOn.bare {r : Reading (Expr Occurrence) c} (hs : s.pending = .nothing)
    (h : GoesOn limit source s c (atomState s r) r.next)
    (hhead : ∀ t ∈ r.next.ahead.head?, quantifier? t.kind r.value = none) :
    GoesOn limit source s c (itemState s r) r.next := by
  refine h.trans ⟨rfl, ?_⟩
  rw [answer_settleAtom rfl hhead, settleAtom_atomState hs]

theorem item_ends (hs : Follows s c) (hc : Guarded broken source c.ahead) (hend : c.atEnd = true → s.current.items = [])
    (ih : ∀ c', c.Before c' → AlternationEnds broken limit source c') :
    (item limit source c).Ends broken (Refuses limit source s c) fun r =>
      GoesOn limit source s c (itemState s r) r.next := by
  rw [item]
  refine (atom_ends hs hc hend ih).bind fun operand hoperand => ?_
  cases hbump : operand.next.bump? with
  | none => exact hoperand.bare hs.pending_eq (by simp [Cursor.bump?_eq_none_iff.mp hbump])
  | some t =>
    obtain ⟨hahead, hterms, hdepth⟩ := Cursor.ahead_of_bump? hbump
    dsimp only
    cases hquantifier : quantifier? t.value.kind operand.value with
    | none => exact hoperand.bare hs.pending_eq (by simpa [hahead] using hquantifier)
    | some e =>
      refine hoperand.trans (goesOn_of_step hahead hdepth ?_)
      simp [step, atomState, itemState, settleName, quantify?, hquantifier, hterms, hs.pending_eq]

theorem follows_itemState (hs : Follows s c) {r : Reading (Expr Occurrence) c} (hdepth : r.next.depth = c.depth) :
    Follows (itemState s r) r.next :=
  ⟨hs.pending_eq, rfl, hs.length_eq.trans hdepth.symm⟩

theorem sequence_ends (ih : ∀ c', c.Before c' → AlternationEnds broken limit source c')
    (ihsequence : ∀ c', c.Before c' → SequenceEnds broken limit source c') : SequenceEnds broken limit source c := by
  intro s hs hc hend
  rw [sequence]
  refine (item_ends hs hc hend ih).bind fun first hfirst => ?_
  cases hstop : first.next.atEnd with
  | true => exact ⟨hfirst, by simp, hstop⟩
  | false =>
    rw [if_neg (by simp)]
    have hothers := ihsequence _ first.before _ (follows_itemState hs hfirst.1) (first.before.guarded hc)
      (by simp [hstop])
    refine (hothers.imp (fun _ he => hfirst.2.trans he) fun _ hr => hr).bind fun others hr => ?_
    refine ⟨hfirst.trans ⟨hr.1.1, hr.1.2.trans ?_⟩, by simp, hr.2.2⟩
    simp [itemsState, itemState, Branches.push]

theorem Cursor.kind_of_atEnd (h : c.atEnd = true) : ∀ t ∈ c.ahead.head?, t.kind = .parenClose ∨ t.kind = .pipe := by
  rcases c with ⟨_ | ⟨t, ts⟩, terms, depth⟩
  · exact nofun
  · intro u hu
    obtain rfl := Option.some.inj hu
    simpa [atEnd, bump?] using h

theorem alternation_ends (ih : ∀ c', c.Before c' → AlternationEnds broken limit source c')
    (hsequence : SequenceEnds broken limit source c) : AlternationEnds broken limit source c := by
  intro s hs hc hitems
  rw [alternation]
  refine (hsequence s hs hc fun _ => hitems).bind fun first hfirst => ?_
  obtain ⟨hread, hne, hstop⟩ := hfirst
  cases hbar : first.next.eat? .pipe with
  | none =>
    refine ⟨(itemsState s first).current, hread, by simp [itemsState, hne], by simp [itemsState, Branches.expr, hitems], ?_⟩
    exact fun ht => (Cursor.kind_of_atEnd hstop _ ht).resolve_right (Cursor.eat?_eq_none hbar _ ht)
  | some bar =>
    obtain ⟨hkind, hahead, hterms, hdepth⟩ := Cursor.ahead_of_eat? hbar
    have hstep : (itemsState s first).step limit bar.value = .ok (itemsState s first).branched := by
      rw [step_of_nothing (show (itemsState s first).pending = .nothing from hs.pending_eq), begin, hkind]
      simp [itemsState, branched, hne]
    have hbranched := hread.trans (goesOn_of_step hahead hdepth hstep)
    have hfollows : Follows (itemsState s first).branched bar.next :=
      ⟨hs.pending_eq, hterms.symm, hs.length_eq.trans hbranched.1.symm⟩
    have hbefore := first.before.trans bar.before
    have hothers := ih _ hbefore _ hfollows (hbefore.guarded hc) rfl
    refine (hothers.imp (fun _ he => hbranched.2.trans he) fun _ hr => hr).bind fun others hr => ?_
    obtain ⟨b, hb⟩ := hr
    refine ⟨b, ⟨hb.goesOn.1.trans hbranched.1, hbranched.2.trans hb.goesOn.2⟩, hb.items_ne_nil, ?_, hb.kind_eq⟩
    simp [hb.expr_eq, itemsState, branched, Branches.split, hitems]

theorem alternationEnds (broken : Prop) (limit : Option Nat) (source : String) (c : Cursor) :
    AlternationEnds broken limit source c := by
  have hboth : ∀ n, ∀ c : Cursor, c.ahead.length = n →
      AlternationEnds broken limit source c ∧ SequenceEnds broken limit source c := by
    intro n
    induction n using Nat.strong_induction_on with
    | _ n ih =>
      rintro c rfl
      have hsequence : SequenceEnds broken limit source c :=
        sequence_ends (fun c' h => (ih _ h.length_lt c' rfl).1) fun c' h => (ih _ h.length_lt c' rfl).2
      exact ⟨alternation_ends (fun c' h => (ih _ h.length_lt c' rfl).1) hsequence, hsequence⟩
  exact (hboth _ c rfl).1

end

end Descent

open CallGrammar.Parser.State Descent in
theorem parseTokens?_cases {broken : Prop} {source : String} {ts : List Token} (h : Guarded broken source ts)
    (limit : Option Nat) : parseTokens? limit source ts = some (parseTokens limit (endOffset source) ts) ∨
      broken ∧ parseTokens? limit source ts = none := by
  have hstart : Follows .initial ⟨ts, .empty, 0⟩ := ⟨rfl, rfl, rfl⟩
  refine Attempt.Ends.run_eq ?_
  rw [root]
  refine (alternationEnds broken limit source _ _ hstart h rfl).bind fun whole hwhole => ?_
  obtain ⟨b, hb⟩ := hwhole
  have hexpr : b.expr = .alt whole.value := hb.expr_eq
  cases hbump : whole.next.bump? with
  | none =>
    refine hb.goesOn.2.trans ?_
    rw [Cursor.bump?_eq_none_iff.mp hbump, answer_nil rfl]
    simp [hb.items_ne_nil, hexpr, initial]
  | some t =>
    obtain ⟨hahead, _, _⟩ := Cursor.ahead_of_bump? hbump
    have hkind : t.value.kind = .parenClose := hb.kind_eq (by simp [hahead])
    have hrest := whole.before.guarded h
    rw [hahead] at hrest
    refine (Attempt.Ends.lift (hrest.slice? List.mem_cons_self) _).bind ?_
    rintro _ rfl
    refine hb.goesOn.2.trans ?_
    rw [hahead]
    refine answer_cons_of_error ?_
    simp [step_of_nothing, begin, hkind, hb.items_ne_nil, initial]

section

variable {source : String} {ts : List Token}

theorem parseTokens?_eq (h : Located source ts) (limit : Option Nat) :
    parseTokens? limit source ts = some (parseTokens limit (endOffset source) ts) :=
  (parseTokens?_cases h.guarded limit).resolve_right fun h => h.1

theorem eq_of_parseTokens?_eq_some {limit : Option Nat} {answer : Except ParseError Parsed} (h : Sliced source ts)
    (hanswer : parseTokens? limit source ts = some answer) : answer = parseTokens limit (endOffset source) ts := by
  rcases parseTokens?_cases h.guarded limit with heq | ⟨_, hnone⟩
  · exact Option.some.inj (hanswer.symm.trans heq)
  · rw [hnone] at hanswer
    cases hanswer

structure Descends (limit : Option Nat) (source : String) (ts : List Token) : Prop where
  eq_some : Located source ts → parseTokens? limit source ts = some (parseTokens limit (endOffset source) ts)
  eq_of_some {answer : Except ParseError Parsed} : Sliced source ts → parseTokens? limit source ts = some answer →
    answer = parseTokens limit (endOffset source) ts

theorem descends (limit : Option Nat) (source : String) (ts : List Token) : Descends limit source ts where
  eq_some h := parseTokens?_eq h limit
  eq_of_some h := eq_of_parseTokens?_eq_some h

theorem parse?_eq (hsize : source.utf8ByteSize < UInt32.size) (limit : Option Nat) :
    parse? limit source = some (parse limit source) := by
  rw [parse?, lex?_eq_some_lex hsize, Option.bind_some, parseTokens?_eq (located_lex hsize), parse]

theorem eq_of_parse?_eq_some {limit : Option Nat} {answer : Except ParseError Parsed}
    (h : parse? limit source = some answer) : answer = parse limit source := by
  obtain ⟨tokens, hlex, hanswer⟩ := Option.bind_eq_some_iff.mp h
  obtain rfl : lex source = tokens := Option.some.inj (Option.ite_none_right_eq_some.mp hlex).2
  exact eq_of_parseTokens?_eq_some (sliced_lex source) hanswer

end

end CallGrammar
