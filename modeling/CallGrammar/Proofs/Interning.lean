import CallGrammar.Proofs.EraseDups
import CallGrammar.Proofs.Numbering
import Mathlib.Data.List.Forall2

namespace CallGrammar

namespace TermTable

def internPlain (t : TermTable) (name : String) : TermTable × TermId := t.intern (.plain name)

def internAliased (t : TermTable) (name callable : String) : TermTable × TermId := t.intern ⟨name, callable⟩

inductive Interning where
  | term (x : Term)
  | plain (name : String)
  | aliased (name callable : String)
  deriving DecidableEq, Repr

def Interning.target : Interning → Term
  | .term x => x
  | .plain name => .plain name
  | .aliased name callable => ⟨name, callable⟩

def perform (t : TermTable) : Interning → TermTable × TermId
  | .term x => t.intern x
  | .plain name => t.internPlain name
  | .aliased name callable => t.internAliased name callable

theorem perform_eq_intern (t : TermTable) (op : Interning) : t.perform op = t.intern op.target := by cases op <;> rfl

def run (t : TermTable) : List Interning → TermTable × List TermId
  | [] => (t, [])
  | op :: ops => (((t.perform op).1.run ops).1, (t.perform op).2 :: ((t.perform op).1.run ops).2)

variable {t : TermTable} {x : Term} {i : TermId} {ops : List Interning}

theorem run_fst (t : TermTable) (ops : List Interning) : (t.run ops).1 = t.internAll (ops.map Interning.target) := by
  induction ops generalizing t with
  | nil => rfl
  | cons op ops ih =>
    rw [run, ih, perform_eq_intern]
    rfl

theorem get?_run_of_get? (h : t.get? i = some x) (ops : List Interning) : (t.run ops).1.get? i = some x := by
  induction ops generalizing t with
  | nil => exact h
  | cons op ops ih =>
    refine ih ?_
    rw [perform_eq_intern]
    exact get?_intern_of_get? h op.target

theorem forall₂_get?_run (t : TermTable) (ops : List Interning) :
    List.Forall₂ (fun op i => (t.run ops).1.get? i = some op.target) ops (t.run ops).2 := by
  induction ops generalizing t with
  | nil => exact .nil
  | cons op ops ih =>
    refine .cons (get?_run_of_get? ?_ ops) (ih _)
    rw [perform_eq_intern]
    exact get?_intern_self t op.target

theorem mem_toList_of_get? (h : t.get? i = some x) : x ∈ t.toList := by
  rw [get?_eq_getElem?] at h
  exact List.mem_of_getElem? h

theorem idxOf_toList_of_get? (h : t.get? i = some x) : t.toList.idxOf x = i := by
  rw [get?_eq_getElem?] at h
  obtain ⟨hi, rfl⟩ := List.getElem?_eq_some_iff.mp h
  exact t.nodup.idxOf_getElem i hi

theorem run_snd (t : TermTable) (ops : List Interning) :
    (t.run ops).2 = (ops.map Interning.target).map (t.run ops).1.toList.idxOf := by
  have hplaces : List.Forall₂ (· = ·) (ops.map fun op => (t.run ops).1.toList.idxOf op.target) (t.run ops).2 :=
    List.forall₂_map_left_iff.mpr ((forall₂_get?_run t ops).imp fun _ _ h => idxOf_toList_of_get? h)
  rw [List.forall₂_eq_eq_eq] at hplaces
  rw [← hplaces, List.map_map]
  rfl

theorem toList_run_empty (ops : List Interning) : (empty.run ops).1.toList = (ops.map Interning.target).eraseDups := by
  rw [run_fst, toList_internAll_empty]

theorem eraseDups_run_empty (ops : List Interning) : (empty.run ops).2.eraseDups = List.range (empty.run ops).1.size := by
  have hterms := toList_run_empty ops
  have hinj : ∀ x ∈ ops.map Interning.target, ∀ y ∈ ops.map Interning.target,
      (empty.run ops).1.toList.idxOf x = (empty.run ops).1.toList.idxOf y → x = y := by
    intro x hx y _ hxy
    refine (List.idxOf_inj ?_).mp hxy
    rw [hterms]
    exact List.mem_eraseDups.mpr hx
  calc
    (empty.run ops).2.eraseDups = (ops.map Interning.target).eraseDups.map (empty.run ops).1.toList.idxOf := by
      rw [run_snd, eraseDups_map_of_inj_on hinj]
    _ = (empty.run ops).1.toList.map (empty.run ops).1.toList.idxOf := by rw [hterms]
    _ = List.range (empty.run ops).1.size := map_idxOf_eq_range (empty.run ops).1.nodup

theorem mem_byCallable_iff {c : String} : i ∈ t.byCallable c ↔ ∃ x, t.get? i = some x ∧ x.callable = c := by
  rw [byCallable, List.mem_filter, List.mem_range, Option.any_eq_true]
  simp only [decide_eq_true_eq, and_iff_right_iff_imp]
  rintro ⟨x, hx, _⟩
  exact (Array.getElem?_eq_some_iff.mp hx).1

theorem ascending_byCallable (t : TermTable) (c : String) : (t.byCallable c).Pairwise (· < ·) :=
  List.pairwise_lt_range.filter _

theorem byCallable_ne_nil_iff {c : String} : t.byCallable c ≠ [] ↔ c ∈ t.callables := by
  rw [mem_callables]
  constructor
  · intro h
    obtain ⟨i, hi⟩ := List.exists_mem_of_ne_nil _ h
    obtain ⟨x, hx, hc⟩ := mem_byCallable_iff.mp hi
    exact ⟨x, mem_toList_of_get? hx, hc⟩
  · rintro ⟨x, hx, hc⟩
    obtain ⟨i, hi⟩ := List.mem_iff_getElem?.mp hx
    rw [← get?_eq_getElem?] at hi
    exact List.ne_nil_of_mem (mem_byCallable_iff.mpr ⟨x, hi, hc⟩)

theorem perm_byCallable (t : TermTable) : (t.callables.flatMap t.byCallable).Perm (List.range t.size) := by
  have hnodup : (t.callables.flatMap t.byCallable).Nodup := by
    refine List.nodup_flatMap.mpr ⟨fun c _ => List.nodup_range.filter _, ?_⟩
    refine (nodup_eraseDups _).imp fun {c c'} hne i hi hi' => ?_
    obtain ⟨x, hx, rfl⟩ := mem_byCallable_iff.mp hi
    obtain ⟨y, hy, rfl⟩ := mem_byCallable_iff.mp hi'
    exact hne (congrArg Term.callable (Option.some.inj (hx.symm.trans hy)))
  refine (List.perm_ext_iff_of_nodup hnodup List.nodup_range).mpr fun i => ?_
  rw [List.mem_flatMap, List.mem_range]
  constructor
  · rintro ⟨c, _, hi⟩
    obtain ⟨x, hx, _⟩ := mem_byCallable_iff.mp hi
    exact (Array.getElem?_eq_some_iff.mp hx).1
  · intro hi
    have hx : t.get? i = some t.terms[i] := Array.getElem?_eq_getElem hi
    exact ⟨_, mem_callables.mpr ⟨_, mem_toList_of_get? hx, rfl⟩, mem_byCallable_iff.mpr ⟨_, hx, rfl⟩⟩

theorem callables_run_empty (ops : List Interning) :
    (empty.run ops).1.callables = (ops.map (·.target.callable)).eraseDups := by
  rw [callables, toList_run_empty, eraseDups_map_eraseDups, List.map_map]
  rfl

theorem get?_eq_none_iff : t.get? i = none ↔ t.size ≤ i := Array.getElem?_eq_none_iff

theorem lt_size_of_mem_run_empty (h : i ∈ (empty.run ops).2) : i < (empty.run ops).1.size := by
  have hrange : i ∈ (empty.run ops).2.eraseDups := List.mem_eraseDups.mpr h
  rwa [eraseDups_run_empty, List.mem_range] at hrange

structure Interned (ops : List Interning) (t : TermTable) (given : List TermId) : Prop where
  length_given : given.length = ops.length
  dense : given.eraseDups = List.range t.size
  toList_eq : t.toList = (ops.map Interning.target).eraseDups
  same_iff {op op' : Interning} {i j : TermId} :
    (op, i) ∈ ops.zip given → (op', j) ∈ ops.zip given → (i = j ↔ op.target = op'.target)
  stable {op : Interning} {i : TermId} (more : List Interning) :
    (op, i) ∈ ops.zip given → (t.run more).1.get? i = some op.target
  fits : t.size < UInt32.size → ∀ i ∈ given, (UInt32.ofNat i).toNat = i
  find?_iff {name callable : String} {i : TermId} :
    t.find? ⟨name, callable⟩ = some i ↔ t.get? i = some ⟨name, callable⟩
  get?_none_iff {i : TermId} : t.get? i = none ↔ t.size ≤ i
  nodup_callables : t.callables.Nodup
  mem_callables_iff {c : String} : c ∈ t.callables ↔ ∃ op ∈ ops, op.target.callable = c
  first : t.callables.Pairwise fun c c' =>
    (ops.map (·.target.callable)).idxOf c < (ops.map (·.target.callable)).idxOf c'
  mem_byCallable {c : String} {i : TermId} : i ∈ t.byCallable c ↔ ∃ x, t.get? i = some x ∧ x.callable = c
  ascending (c : String) : (t.byCallable c).Pairwise (· < ·)
  inhabited {c : String} : c ∈ t.callables → t.byCallable c ≠ []
  partition : (t.callables.flatMap t.byCallable).Perm (List.range t.size)

theorem interned_run (ops : List Interning) : Interned ops (empty.run ops).1 (empty.run ops).2 := by
  obtain ⟨hlength, hgiven⟩ := List.forall₂_iff_zip.mp (forall₂_get?_run empty ops)
  exact {
    length_given := hlength.symm
    dense := eraseDups_run_empty ops
    toList_eq := toList_run_empty ops
    same_iff := fun hi hj => by
      constructor
      · rintro rfl
        exact Option.some.inj ((hgiven hi).symm.trans (hgiven hj))
      · intro hsame
        exact eq_of_get?_eq (hgiven hi) (hsame ▸ hgiven hj)
    stable := fun more hi => get?_run_of_get? (hgiven hi) more
    fits := fun hsize i hi => UInt32.toNat_ofNat_of_lt' (Nat.lt_trans (lt_size_of_mem_run_empty hi) hsize)
    find?_iff := find?_eq_some_iff
    get?_none_iff := get?_eq_none_iff
    nodup_callables := nodup_eraseDups _
    mem_callables_iff := by simp [callables_run_empty, List.mem_eraseDups]
    first := by
      rw [callables_run_empty]
      exact pairwise_idxOf_eraseDups _
    mem_byCallable := mem_byCallable_iff
    ascending := ascending_byCallable _
    inhabited := byCallable_ne_nil_iff.mpr
    partition := perm_byCallable _ }

example : (empty.run [.plain "of", .aliased "a" "item", .aliased "of" "of", .aliased "b" "item"]).2 = [0, 1, 0, 2] := by
  decide +kernel

end TermTable

end CallGrammar
