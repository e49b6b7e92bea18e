import DistLabs.Lib.HistorySearch
import Mathlib.Data.List.Perm.Lattice
import Mathlib.Order.Basic

/-!
# Operations with times

The operations of a history are given with the times at which they were called and returned. An
order of them is a linearization if none comes before one that had returned when it was called.

An object with a part for each key is linearizable if its operations on every single key are
(`linearizable_product_iff`): orders for the keys are merged by the times of the calls.
-/

namespace DistLabs

open scoped List

variable {ι I O S K T α : Type*} [LinearOrder T]

/-- An order of operations that respects their times. -/
structure TimedLinearization (M : Model I O S) (op : α → Operation ι I O) (call ret : α → T)
    (ops l : List α) : Prop where
  perm : l ~ ops
  right : (M.run M.init (l.map op)).isSome
  order : l.Pairwise fun a b => ¬ret b < call a

def TimedLinearizable (M : Model I O S) (op : α → Operation ι I O) (call ret : α → T)
    (ops : List α) : Prop :=
  ∃ l, TimedLinearization M op call ret ops l

variable {M : Model I O S} {op : α → Operation ι I O} {call ret : α → T} {ops l l' : List α}

/-- Only the inputs and the outputs of operations matter to the object. -/
lemma Model.run_congr {ι' : Type*} {op' : α → Operation ι' I O}
    (h : ∀ a ∈ l, (op' a).input = (op a).input ∧ (op' a).output = (op a).output) (s : S) :
    M.run s (l.map op') = M.run s (l.map op) := by
  induction l generalizing s with
  | nil => rfl
  | cons a l ih =>
    obtain ⟨hin, hout⟩ := h a List.mem_cons_self
    simp only [List.map_cons, Model.run, hin, hout]
    rw [ih fun b hb => h b (List.mem_cons_of_mem _ hb)]

lemma timedLinearizable_congr {ι' : Type*} {op' : α → Operation ι' I O}
    (h : ∀ a, (op a).input = (op' a).input ∧ (op a).output = (op' a).output) :
    TimedLinearizable M op call ret ops ↔ TimedLinearizable M op' call ret ops := by
  have hrun : ∀ l : List α, M.run M.init (l.map op) = M.run M.init (l.map op') := fun l =>
    Model.run_congr (fun a _ => h a) _
  constructor
  · rintro ⟨l, hperm, hright, horder⟩
    exact ⟨l, hperm, hrun l ▸ hright, horder⟩
  · rintro ⟨l, hperm, hright, horder⟩
    exact ⟨l, hperm, (hrun l).symm ▸ hright, horder⟩

/-! ### Lists -/

lemma sublist_or_sublist {α : Type*} {l : List α} {a b : α} (ha : a ∈ l) (hb : b ∈ l)
    (hne : a ≠ b) : [a, b] <+ l ∨ [b, a] <+ l := by
  induction l with
  | nil => cases ha
  | cons c l ih =>
    rcases List.mem_cons.mp ha with rfl | ha'
    · have hb' := (List.mem_cons.mp hb).resolve_left hne.symm
      exact .inl ((List.singleton_sublist.mpr hb').cons_cons a)
    · rcases List.mem_cons.mp hb with rfl | hb'
      · exact .inr ((List.singleton_sublist.mpr ha').cons_cons b)
      · exact (ih ha' hb').imp (fun h => h.cons c) fun h => h.cons c

lemma not_sublist_swap {α : Type*} {l : List α} {a b : α} (hnd : l.Nodup) (h : [a, b] <+ l) :
    ¬[b, a] <+ l := by
  intro h'
  induction l with
  | nil => cases h
  | cons c l ih =>
    obtain ⟨hc, hnd⟩ := List.nodup_cons.mp hnd
    cases h with
    | cons _ h =>
      cases h' with
      | cons _ h' => exact ih hnd h h'
      | cons_cons _ _ => exact hc (h.subset (by simp))
    | cons_cons _ h =>
      cases h' with
      | cons _ h' => exact hc (h'.subset (by simp))
      | cons_cons _ _ => exact hc (List.singleton_sublist.mp h)

lemma exists_map_eq {α β : Type*} {f : α → β} {P : α → Prop} {l : List β}
    (hl : ∀ b ∈ l, ∃ a, P a ∧ f a = b) : ∃ l' : List α, l'.map f = l ∧ ∀ a ∈ l', P a := by
  induction l with
  | nil => exact ⟨[], rfl, by simp⟩
  | cons b l ih =>
    obtain ⟨a, ha, rfl⟩ := hl b List.mem_cons_self
    obtain ⟨l', rfl, hl'⟩ := ih fun b hb => hl b (List.mem_cons_of_mem _ hb)
    exact ⟨a :: l', rfl, by simpa using ⟨ha, hl'⟩⟩

/-- A permutation of the images is one of the elements. -/
lemma exists_perm_of_map {α β : Type*} {f : α → β} {l : List β} {l' : List α}
    (h : l ~ l'.map f) : ∃ l'', l'' ~ l' ∧ l''.map f = l := by
  generalize hk : l'.map f = k at h
  induction h generalizing l' with
  | nil =>
    obtain rfl := List.map_eq_nil_iff.mp hk
    exact ⟨[], .refl _, rfl⟩
  | cons b _ ih =>
    obtain ⟨a, l₁, rfl, rfl, hk₁⟩ := List.map_eq_cons_iff.mp hk
    obtain ⟨l₂, hperm, rfl⟩ := ih hk₁
    exact ⟨a :: l₂, hperm.cons a, rfl⟩
  | swap b b' l =>
    obtain ⟨a, l₁, rfl, rfl, hk₁⟩ := List.map_eq_cons_iff.mp hk
    obtain ⟨a', l₂, rfl, rfl, rfl⟩ := List.map_eq_cons_iff.mp hk₁
    exact ⟨a' :: a :: l₂, .swap a a' l₂, rfl⟩
  | trans _ _ ih ih' =>
    obtain ⟨l₁, hperm₁, hl₁⟩ := ih' hk
    obtain ⟨l₂, hperm₂, hl₂⟩ := ih hl₁
    exact ⟨l₂, hperm₂.trans hperm₁, hl₂⟩

/-! ### Recorded operations -/

lemma timedLinearizable_map_iff {β : Type*} {f : β → α} {ops : List β} :
    TimedLinearizable M op call ret (ops.map f) ↔
      TimedLinearizable M (fun b => op (f b)) (fun b => call (f b)) (fun b => ret (f b)) ops := by
  constructor
  · rintro ⟨l, hperm, hright, horder⟩
    obtain ⟨l, hl, rfl⟩ := exists_perm_of_map hperm
    exact ⟨l, hl, by simpa [Function.comp_def] using hright, List.pairwise_map.mp horder⟩
  · rintro ⟨l, hperm, hright, horder⟩
    exact ⟨l.map f, hperm.map f, by simpa [Function.comp_def] using hright,
      List.pairwise_map.mpr horder⟩

/-- A linearization of a history is one of the operations with times, if what has returned before a
call according to the times has also done so in the history. -/
lemma Linearization.timed {h : List (Event ι I O)} {l : List (Operation ι I O)}
    (hl : Linearization M h l) (hnd : (ops.map fun a => (op a).id).Nodup)
    (hmem : ∀ x, x ∈ l ↔ ∃ a ∈ ops, op a = x)
    (horder : ∀ a ∈ ops, ∀ b ∈ ops, ret a < call b →
      [.ret (op a).id (op a).output, .call (op b).id (op b).input] <+ h) :
    TimedLinearizable M op call ret ops := by
  obtain ⟨l, rfl, hsub⟩ := exists_map_eq fun x hx => (hmem x).mp hx
  have hids : (l.map fun a => (op a).id).Nodup := by
    have := hl.nodup
    rwa [List.map_map] at this
  have hperm : l ~ ops := by
    refine (List.perm_ext_iff_of_nodup (hids.of_map _) (hnd.of_map _)).mpr fun a => ⟨hsub a, ?_⟩
    intro ha
    obtain ⟨b, hb, heq⟩ := List.mem_map.mp ((hmem _).mpr ⟨a, ha, rfl⟩)
    obtain rfl := List.inj_on_of_nodup_map hnd (hsub b hb) ha (congrArg Operation.id heq)
    exact hb
  refine ⟨l, hperm, hl.right, List.pairwise_iff_forall_sublist.mpr fun {a b} hab hlt => ?_⟩
  have ha : a ∈ l := hab.subset (by simp)
  have hb : b ∈ l := hab.subset (by simp)
  have hswap := hl.order (op b) (List.mem_map_of_mem hb) (op a) (List.mem_map_of_mem ha)
    (horder b (hsub b hb) a (hsub a ha) hlt)
  exact not_sublist_swap (hl.nodup.of_map _) (hab.map op) hswap

/-! ### One object for each key -/

variable [DecidableEq K] {key : I → K}

/-- The object that has a copy of another one for each key. -/
def Model.product (M : Model I O S) (key : I → K) : Model I O (K → S) where
  init _ := M.init
  step st i o :=
    ((M.step (st (key i)) i o).1, Function.update st (key i) (M.step (st (key i)) i o).2)

lemma Model.isSome_run_product (st : K → S) (l : List (Operation ι I O)) :
    ((M.product key).run st l).isSome ↔
      ∀ k, (M.run (st k) (l.filter fun x => key x.input = k)).isSome := by
  induction l generalizing st with
  | nil => simp [Model.run]
  | cons x l ih =>
    have hself : (M.run (st (key x.input)) ((x :: l).filter fun y => key y.input = key x.input)) =
        if (M.step (st (key x.input)) x.input x.output).1 then
          M.run (M.step (st (key x.input)) x.input x.output).2
            (l.filter fun y => key y.input = key x.input)
        else none := by
      rw [List.filter_cons_of_pos (by simp), Model.run]
    have hother : ∀ k, k ≠ key x.input →
        ((x :: l).filter fun y => key y.input = k) = l.filter fun y => key y.input = k :=
      fun k hk => List.filter_cons_of_neg (by simpa using hk.symm)
    have hrun : (M.product key).run st (x :: l) =
        if (M.step (st (key x.input)) x.input x.output).1 then
          (M.product key).run (Function.update st (key x.input)
            (M.step (st (key x.input)) x.input x.output).2) l
        else none := rfl
    rw [hrun]
    constructor
    · intro h k
      split_ifs at h with hok
      · have hk := (ih _).mp h k
        rcases eq_or_ne k (key x.input) with rfl | hne
        · rw [hself, if_pos hok]
          rwa [Function.update_self] at hk
        · rw [hother k hne]
          rwa [Function.update_of_ne hne] at hk
      · cases h
    · intro h
      have hok : (M.step (st (key x.input)) x.input x.output).1 = true := by
        by_contra hno
        have := h (key x.input)
        rw [hself, if_neg hno] at this
        cases this
      rw [if_pos hok, ih]
      intro k
      have hk := h k
      rcases eq_or_ne k (key x.input) with rfl | hne
      · rw [hself, if_pos hok] at hk
        rwa [Function.update_self]
      · rw [hother k hne] at hk
        rwa [Function.update_of_ne hne]

/-! ### Merging orders -/

/-- Of two operations that come first the one called earlier is taken. -/
def mergeByCall (call : α → T) (l l' : List α) : List α := l.merge l' fun a b => call a ≤ call b

lemma mergeByCall_perm (call : α → T) (l l' : List α) : mergeByCall call l l' ~ l ++ l' :=
  List.merge_perm_append _

/-- The order of the times is kept. -/
lemma pairwise_mergeByCall (hvalid : ∀ a ∈ l ++ l', call a ≤ ret a)
    (hl : l.Pairwise fun a b => ¬ret b < call a) (hl' : l'.Pairwise fun a b => ¬ret b < call a) :
    (mergeByCall call l l').Pairwise fun a b => ¬ret b < call a := by
  induction l generalizing l' with
  | nil => simpa [mergeByCall] using hl'
  | cons a l ih =>
    induction l' with
    | nil => simpa [mergeByCall] using hl
    | cons b l' ih' =>
      obtain ⟨ha, hl⟩ := List.pairwise_cons.mp hl
      obtain ⟨hb, hl'⟩ := List.pairwise_cons.mp hl'
      rw [mergeByCall, List.cons_merge_cons]
      split_ifs with hab
      · rw [decide_eq_true_eq] at hab
        refine List.pairwise_cons.mpr ⟨fun c hc => ?_, ih (fun c hc => hvalid c ?_) hl
          (List.pairwise_cons.mpr ⟨hb, hl'⟩)⟩
        · rcases List.mem_merge.mp hc with hc | hc
          · exact ha c hc
          · -- `b` was called after `a`, and nothing behind `b` had returned then
            rcases List.mem_cons.mp hc with rfl | hc
            · exact not_lt.mpr (hab.trans (hvalid c (by simp)))
            · exact not_lt.mpr (hab.trans (not_lt.mp (hb c hc)))
        · exact List.mem_cons_of_mem _ hc
      · rw [decide_eq_true_eq, not_le] at hab
        refine List.pairwise_cons.mpr ⟨fun c hc => ?_, ih' (fun c hc => hvalid c ?_) hl'⟩
        · rcases List.mem_merge.mp hc with hc | hc
          · rcases List.mem_cons.mp hc with rfl | hc
            · exact not_lt.mpr (hab.le.trans (hvalid c (by simp)))
            · exact not_lt.mpr (hab.le.trans (not_lt.mp (ha c hc)))
          · exact hb c hc
        · simp only [List.mem_append, List.mem_cons] at hc ⊢
          tauto

lemma sublist_mergeByCall (call : α → T) (l l' : List α) :
    l <+ mergeByCall call l l' ∧ l' <+ mergeByCall call l l' := by
  induction l generalizing l' with
  | nil => simp [mergeByCall]
  | cons a l ih =>
    induction l' with
    | nil => simp [mergeByCall]
    | cons b l' ih' =>
      rw [mergeByCall, List.cons_merge_cons]
      split_ifs
      · exact ⟨(ih _).1.cons_cons a, (ih _).2.cons a⟩
      · exact ⟨ih'.1.cons b, ih'.2.cons_cons b⟩

/-- What is chosen from the first list only. -/
lemma filter_mergeByCall_left {p : α → Bool} (hl' : ∀ a ∈ l', p a = false) :
    (mergeByCall call l l').filter p = l.filter p := by
  have hperm := (mergeByCall_perm call l l').filter p
  have hnil : l'.filter p = [] := List.filter_eq_nil_iff.mpr (by simpa using hl')
  rw [List.filter_append, hnil, List.append_nil] at hperm
  exact (((sublist_mergeByCall call l l').1.filter p).eq_of_length hperm.length_eq.symm).symm

/-- What is chosen from the second list only. -/
lemma filter_mergeByCall_right {p : α → Bool} (hl : ∀ a ∈ l, p a = false) :
    (mergeByCall call l l').filter p = l'.filter p := by
  have hperm := (mergeByCall_perm call l l').filter p
  have hnil : l.filter p = [] := List.filter_eq_nil_iff.mpr (by simpa using hl)
  rw [List.filter_append, hnil, List.nil_append] at hperm
  exact (((sublist_mergeByCall call l l').2.filter p).eq_of_length hperm.length_eq.symm).symm

/-- The operations on one key. -/
def onKey (op : α → Operation ι I O) (key : I → K) (ops : List α) (k : K) : List α :=
  ops.filter fun a => key (op a).input = k

lemma mem_onKey {k : K} {a : α} : a ∈ onKey op key ops k ↔ a ∈ ops ∧ key (op a).input = k := by
  simp [onKey]

/-- Orders of the operations on some keys can be merged. -/
lemma exists_merge (hvalid : ∀ a ∈ ops, call a ≤ ret a) {w : K → List α}
    (hperm : ∀ k, w k ~ onKey op key ops k)
    (horder : ∀ k, (w k).Pairwise fun a b => ¬ret b < call a) {ks : List K} (hks : ks.Nodup) :
    ∃ l, l ~ ops.filter (fun a => key (op a).input ∈ ks) ∧
      (l.Pairwise fun a b => ¬ret b < call a) ∧ ∀ k ∈ ks, onKey op key l k = w k := by
  have hw : ∀ k, ∀ a ∈ w k, a ∈ ops ∧ key (op a).input = k := fun k a ha =>
    mem_onKey.mp ((hperm k).subset ha)
  induction ks with
  | nil => exact ⟨[], by simp, by simp, by simp⟩
  | cons k ks ih =>
    obtain ⟨hk, hks⟩ := List.nodup_cons.mp hks
    obtain ⟨l, hl, hpair, hfilter⟩ := ih hks
    have hmem : ∀ a ∈ l, a ∈ ops ∧ key (op a).input ∈ ks := by
      intro a ha
      simpa using hl.subset ha
    refine ⟨mergeByCall call (w k) l, ?_, ?_, ?_⟩
    · refine (mergeByCall_perm call _ _).trans (((hperm k).append hl).trans ?_)
      have hsplit := List.filter_append_perm (fun a => decide (key (op a).input = k))
        (ops.filter fun a => decide (key (op a).input ∈ k :: ks))
      refine .trans (.of_eq ?_) hsplit
      rw [List.filter_filter, List.filter_filter, onKey]
      congr 1
      · exact List.filter_congr fun a _ => by simp +contextual
      · refine List.filter_congr fun a _ => ?_
        by_cases ha : key (op a).input = k
        · simp [ha, hk]
        · simp [ha]
    · refine pairwise_mergeByCall (fun a ha => hvalid a ?_) (horder k) hpair
      rcases List.mem_append.mp ha with ha | ha
      · exact (hw k a ha).1
      · exact (hmem a ha).1
    · intro k' hk'
      rcases eq_or_ne k' k with rfl | hne
      · rw [onKey, filter_mergeByCall_left fun a ha => ?_]
        · exact List.filter_eq_self.mpr fun a ha => by simpa using (hw k' a ha).2
        · have hne : key (op a).input ≠ k' := fun heq => hk (heq ▸ (hmem a ha).2)
          simpa using hne
      · rw [onKey, filter_mergeByCall_right fun a ha => ?_]
        · exact hfilter k' ((List.mem_cons.mp hk').resolve_left hne)
        · simpa [(hw k a ha).2] using hne.symm

/-- The operations on an object with a part for each key are linearizable if those on every key
are. -/
theorem linearizable_product_iff (hvalid : ∀ a ∈ ops, call a ≤ ret a) :
    TimedLinearizable (M.product key) op call ret ops ↔
      ∀ k, TimedLinearizable M op call ret (onKey op key ops k) := by
  have hfilter : ∀ (l : List α) (k : K),
      ((l.map op).filter fun x => decide (key x.input = k)) = (onKey op key l k).map op := by
    intro l k
    rw [onKey, List.filter_map]
    rfl
  constructor
  · rintro ⟨l, hperm, hright, horder⟩ k
    refine ⟨onKey op key l k, hperm.filter _, ?_, horder.filter _⟩
    have := (Model.isSome_run_product _ _).mp hright k
    rwa [hfilter] at this
  · intro h
    choose w hw using h
    obtain ⟨l, hl, hpair, hk⟩ := exists_merge hvalid (fun k => (hw k).perm) (fun k => (hw k).order)
      (List.nodup_dedup (ops.map fun a => key (op a).input))
    have hall : ops.filter (fun a => decide (key (op a).input ∈
        (ops.map fun a => key (op a).input).dedup)) = ops :=
      List.filter_eq_self.mpr fun a ha => by simpa using ⟨a, ha, rfl⟩
    rw [hall] at hl
    refine ⟨l, hl, (Model.isSome_run_product _ _).mpr fun k => ?_, hpair⟩
    rw [hfilter]
    by_cases hmem : k ∈ (ops.map fun a => key (op a).input).dedup
    · rw [hk k hmem]
      exact (hw k).right
    · have hnil : onKey op key l k = [] := by
        refine List.filter_eq_nil_iff.mpr fun a ha heq => hmem ?_
        rw [List.mem_dedup]
        exact List.mem_map.mpr ⟨a, hl.subset ha, by simpa using heq⟩
      rw [hnil]
      rfl

end DistLabs
