import Mathlib
import HassanNode.Lib.Search

/-!
# HassanNode.Lib.Postorder

Depth-first post-order with an explicit stack, in general: a node is entered,
pushed back as processed, and its parents are pushed above it; it is listed when
it is popped the second time. On an acyclic graph every node comes after its
parents (`order_spec`).
-/

namespace HassanNode

open Std (ExtTreeMap)

namespace Postorder

variable {κ : Type} [Ord κ] [Std.TransOrd κ] [Std.LawfulEqOrd κ] [DecidableEq κ]

/-- How far a node is: on the stack as processed, or listed. -/
inductive Mark
  | entered
  | done
  deriving DecidableEq

/-- The marks so far and the order so far. -/
structure Progress (κ : Type) [Ord κ] where
  mark : ExtTreeMap κ Mark := ∅
  order : List κ := []

/-- The loop over one stack; the last parent pushed is the first one popped. It returns
nothing when it runs out of fuel. -/
def visit (parents : κ → List κ) : (fuel : Nat) → List (κ × Bool) → Progress κ → Option (Progress κ)
  | _, [], s => some s
  | 0, _ :: _, _ => none
  | fuel + 1, (node, true) :: stack, s =>
    visit parents fuel stack
      { mark := s.mark.insert node .done
        order := if s.mark[node]? = some .done then s.order else s.order ++ [node] }
  | fuel + 1, (node, false) :: stack, s =>
    if s.mark.contains node then visit parents fuel stack s
    else
      let mark := s.mark.insert node .entered
      let pushed := (parents node).filter fun p => mark[p]? ≠ some .done
      visit parents fuel (pushed.reverse.map (·, false) ++ (node, true) :: stack)
        { s with mark := mark }

/-- A start that is not listed yet gets a stack of its own. -/
def visitStart (parents : κ → List κ) (fuel : Nat) (s : Progress κ) (start : κ) : Option (Progress κ) :=
  if s.mark[start]? = some .done then some s else visit parents fuel [(start, false)] s

/-- The order of the starts with what they reach. -/
def order (parents : κ → List κ) (fuel : Nat) (starts : List κ) : Option (List κ) :=
  (starts.foldlM (visitStart parents fuel) {}).map Progress.order

/-- Enough fuel for any stack of one entry: every node is pushed back once and
pushes its parents once. -/
def orderFuel (parents : κ → List κ) (nodes : List κ) : Nat :=
  1 + (nodes.map fun n => (parents n).length + 1).sum

/-- Every node comes after its parents. -/
def ParentsFirst (parents : κ → List κ) (order : List κ) : Prop :=
  ∀ earlier n later, order = earlier ++ n :: later → ∀ p ∈ parents n, p ∈ earlier

omit [Ord κ] [Std.TransOrd κ] [Std.LawfulEqOrd κ] [DecidableEq κ] in
theorem ParentsFirst.concat {parents : κ → List κ} {order : List κ} {n : κ}
    (h : ParentsFirst parents order) (hn : ∀ p ∈ parents n, p ∈ order) :
    ParentsFirst parents (order ++ [n]) := by
  intro earlier m later heq p hp
  rcases List.eq_nil_or_concat later with rfl | ⟨init, last, rfl⟩
  · obtain ⟨rfl, hm⟩ := List.append_inj' heq rfl
    obtain rfl := List.singleton_inj.mp hm
    exact hn p hp
  · have hsplit : order ++ [n] = (earlier ++ m :: init) ++ [last] := by simp [heq]
    obtain ⟨rfl, -⟩ := List.append_inj' hsplit rfl
    exact h earlier m init rfl p hp

/-- The part of the graph that has not been entered, with what it will push. -/
def pending (parents : κ → List κ) (nodes : List κ) (mark : ExtTreeMap κ Mark) : Nat :=
  ((nodes.filter fun n => !mark.contains n).map fun n => (parents n).length + 1).sum

/-- Entering a node releases what it pushes. -/
theorem pending_insert {parents : κ → List κ} {nodes : List κ} (hnodup : nodes.Nodup)
    {mark : ExtTreeMap κ Mark} {n : κ} (hn : n ∈ nodes) (hfresh : mark.contains n = false) (m : Mark) :
    pending parents nodes (mark.insert n m) + ((parents n).length + 1)
      = pending parents nodes mark := by
  have herase : nodes.filter (fun k => !(mark.insert n m).contains k)
      = (nodes.filter fun k => !mark.contains k).erase n := by
    rw [(hnodup.filter _).erase_eq_filter, List.filter_filter]
    refine List.filter_congr fun k _ => ?_
    by_cases hk : n = k
    · subst hk
      simp
    · have hcmp : (compare n k == .eq) = false := by simpa using hk
      have hne : (k != n) = true := by simpa using Ne.symm hk
      rw [ExtTreeMap.contains_insert, hcmp, hne, Bool.false_or, Bool.true_and]
  rw [pending, pending, herase, Nat.add_comm]
  exact List.sum_map_erase (fun k => (parents k).length + 1)
    (List.mem_filter.mpr ⟨hn, by simp [hfresh]⟩)

/-- What the loop keeps. A processed entry waits for its parents, which are
listed or above it on the stack; and whatever is above it is an ancestor. -/
structure Walk (parents : κ → List κ) (nodes : List κ) (stack : List (κ × Bool))
    (s : Progress κ) : Prop where
  done : ∀ n, s.mark[n]? = some .done ↔ n ∈ s.order
  entered : ∀ n, s.mark[n]? = some .entered ↔ (n, true) ∈ stack
  inside : ∀ e ∈ stack, e.1 ∈ nodes
  listed : ∀ n ∈ s.order, n ∈ nodes
  nodup : s.order.Nodup
  first : ParentsFirst parents s.order
  waits : ∀ above n below, stack = above ++ (n, true) :: below →
    ∀ p ∈ parents n, p ∈ s.order ∨ ∃ b, (p, b) ∈ above
  upward : ∀ above n below, stack = above ++ (n, true) :: below →
    ∀ e ∈ above, Relation.TransGen (fun p k => p ∈ parents k) e.1 n

namespace Walk

variable {parents : κ → List κ} {nodes : List κ} {stack : List (κ × Bool)} {s : Progress κ} {n : κ}

/-- A processed entry on top is listed next. -/
theorem list (w : Walk parents nodes ((n, true) :: stack) s)
    (hacyclic : ∀ x, ¬ Relation.TransGen (fun p k => p ∈ parents k) x x) :
    s.mark[n]? = some .entered ∧
      Walk parents nodes stack { mark := s.mark.insert n .done, order := s.order ++ [n] } := by
  have hmark : s.mark[n]? = some .entered := (w.entered n).mpr (by simp)
  have hnew : n ∉ s.order := by
    intro hmem
    have hdone := (w.done n).mpr hmem
    rw [hmark] at hdone
    cases hdone
  -- a second processed entry for the same node would make it its own ancestor
  have honce : (n, true) ∉ stack := by
    intro hmem
    obtain ⟨above, below, rfl⟩ := List.append_of_mem hmem
    exact hacyclic n (w.upward ((n, true) :: above) n below (by simp) (n, true) (by simp))
  have hparents : ∀ p ∈ parents n, p ∈ s.order := fun p hp =>
    (w.waits [] n stack rfl p hp).resolve_right (by simp)
  refine ⟨hmark, fun k => ?_, fun k => ?_, fun e he => w.inside e (by simp [he]), fun k hk => ?_, ?_,
    w.first.concat hparents, fun above k below heq p hp => ?_, fun above k below heq e he => ?_⟩
  · by_cases hk : n = k
    · subst hk
      simp
    · simp [ExtTreeMap.getElem?_insert, hk, Ne.symm hk, w.done]
  · by_cases hk : n = k
    · subst hk
      simp [honce]
    · have hold := w.entered k
      simp only [List.mem_cons, Prod.mk.injEq, Ne.symm hk, false_and, false_or] at hold
      simp [ExtTreeMap.getElem?_insert, hk, hold]
  · rcases List.mem_append.mp hk with hk | hk
    · exact w.listed k hk
    · rw [List.mem_singleton.mp hk]
      exact w.inside (n, true) (by simp)
  · rw [List.nodup_append]
    exact ⟨w.nodup, List.nodup_singleton n, fun a ha b hb heq =>
      hnew (List.mem_singleton.mp hb ▸ heq ▸ ha)⟩
  · rcases w.waits ((n, true) :: above) k below (by simp [heq]) p hp with hlisted | ⟨b, hb⟩
    · exact Or.inl (List.mem_append_left _ hlisted)
    · rcases List.mem_cons.mp hb with heq' | hb
      · obtain ⟨rfl, -⟩ := Prod.mk.injEq .. ▸ heq'
        exact Or.inl (by simp)
      · exact Or.inr ⟨b, hb⟩
  · exact w.upward ((n, true) :: above) k below (by simp [heq]) e (by simp [he])

omit [Std.LawfulEqOrd κ] [DecidableEq κ] in
/-- A marked node is popped without effect. -/
theorem skip (w : Walk parents nodes ((n, false) :: stack) s)
    (hacyclic : ∀ x, ¬ Relation.TransGen (fun p k => p ∈ parents k) x x)
    (hmark : s.mark.contains n = true) :
    (n ∈ s.order ∨ (n, true) ∈ stack) ∧ Walk parents nodes stack s := by
  have hwhere : n ∈ s.order ∨ (n, true) ∈ stack := by
    rw [ExtTreeMap.contains_iff_mem, ExtTreeMap.mem_iff_isSome_getElem?] at hmark
    obtain ⟨m, hm⟩ := Option.isSome_iff_exists.mp hmark
    cases m with
    | done => exact Or.inl ((w.done n).mp hm)
    | entered => exact Or.inr (by simpa using (w.entered n).mp hm)
  refine ⟨hwhere, w.done, fun k => ?_, fun e he => w.inside e (by simp [he]), w.listed, w.nodup, w.first,
    fun above k below heq p hp => ?_, fun above k below heq e he => ?_⟩
  · rw [w.entered k]
    simp
  · rcases w.waits ((n, false) :: above) k below (by simp [heq]) p hp with hlisted | ⟨b, hb⟩
    · exact Or.inl hlisted
    · rcases List.mem_cons.mp hb with heq' | hb
      · obtain ⟨rfl, rfl⟩ := Prod.mk.injEq .. ▸ heq'
        rcases hwhere with hlisted | hin
        · exact Or.inl hlisted
        · -- an entered parent is above its child: below it, it would be its descendant
          rw [heq] at hin
          rcases List.mem_append.mp hin with hin | hin
          · exact Or.inr ⟨true, hin⟩
          · exfalso
            rcases List.mem_cons.mp hin with heq' | hin
            · obtain ⟨rfl, -⟩ := Prod.mk.injEq .. ▸ heq'
              exact hacyclic p (.single hp)
            · obtain ⟨mid, rest, rfl⟩ := List.append_of_mem hin
              have hdown := w.upward ((p, false) :: above ++ (k, true) :: mid) p rest (by simp [heq])
                (k, true) (by simp)
              exact hacyclic p (Relation.TransGen.trans (.single hp) hdown)
      · exact Or.inr ⟨b, hb⟩
  · exact w.upward ((n, false) :: above) k below (by simp [heq]) e (by simp [he])

/-- A fresh node is entered. -/
theorem enter (w : Walk parents nodes ((n, false) :: stack) s)
    (hclosed : ∀ k ∈ nodes, ∀ p ∈ parents k, p ∈ nodes) (hfresh : s.mark.contains n = false) :
    Walk parents nodes ((((parents n).filter fun p => (s.mark.insert n .entered)[p]? ≠ some .done
      ).reverse.map (·, false)) ++ (n, true) :: stack) { s with mark := s.mark.insert n .entered } := by
  have hnone : s.mark[n]? = none := by
    refine ExtTreeMap.getElem?_eq_none ?_
    rw [← ExtTreeMap.contains_iff_mem, hfresh]
    simp
  have hunlisted : n ∉ s.order := by
    intro hmem
    have hdone := (w.done n).mpr hmem
    rw [hnone] at hdone
    cases hdone
  have hmem : ∀ {e : κ × Bool}, e ∈ ((parents n).filter fun p =>
      (s.mark.insert n .entered)[p]? ≠ some .done).reverse.map (·, false) →
      e.1 ∈ parents n ∧ e.2 = false := by
    intro e he
    obtain ⟨p, hp, rfl⟩ := List.mem_map.mp he
    exact ⟨(List.mem_filter.mp (List.mem_reverse.mp hp)).1, rfl⟩
  generalize hpushed : ((parents n).filter fun p =>
    (s.mark.insert n .entered)[p]? ≠ some .done).reverse.map (·, false) = pushed at hmem ⊢
  -- a processed entry of the new stack is the new one, or an old one below it
  have hsplit : ∀ above k below, pushed ++ (n, true) :: stack = above ++ (k, true) :: below →
      (k = n ∧ above = pushed) ∨ ∃ mid, above = pushed ++ (n, true) :: mid ∧
        (n, false) :: stack = ((n, false) :: mid) ++ (k, true) :: below := by
    intro above k below heq
    rcases List.append_eq_append_iff.mp heq with ⟨mid, rfl, hrest⟩ | ⟨mid, rfl, hrest⟩
    · cases mid with
      | nil =>
          obtain ⟨h, -⟩ := List.cons.inj hrest
          exact Or.inl ⟨(Prod.mk.inj h).1.symm, by simp⟩
      | cons e mid =>
          obtain ⟨rfl, rfl⟩ := List.cons.inj hrest
          exact Or.inr ⟨mid, rfl, by simp⟩
    · cases mid with
      | nil =>
          obtain ⟨h, -⟩ := List.cons.inj hrest
          exact Or.inl ⟨(Prod.mk.inj h).1, by simp⟩
      | cons e mid =>
          obtain ⟨rfl, -⟩ := List.cons.inj hrest
          exact absurd (hmem (e := (k, true)) (by simp)).2 (by simp)
  refine ⟨fun k => ?_, fun k => ?_, fun e he => ?_, w.listed, w.nodup, w.first,
    fun above k below heq p hp => ?_, fun above k below heq e he => ?_⟩
  · by_cases hk : n = k
    · subst hk
      simp [hunlisted]
    · simp [ExtTreeMap.getElem?_insert, hk, w.done]
  · by_cases hk : n = k
    · subst hk
      simp
    · have hold := w.entered k
      simp only [List.mem_cons, Prod.mk.injEq, Bool.true_eq_false, and_false, false_or] at hold
      have hnot : (k, true) ∉ pushed := fun h => by simpa using (hmem h).2
      simp [ExtTreeMap.getElem?_insert, hk, Ne.symm hk, hold, hnot]
  · rcases List.mem_append.mp he with he | he
    · exact hclosed n (w.inside (n, false) (by simp)) e.1 (hmem he).1
    · rcases List.mem_cons.mp he with rfl | he
      · exact w.inside (n, false) (by simp)
      · exact w.inside e (by simp [he])
  · rcases hsplit above k below heq with ⟨rfl, rfl⟩ | ⟨mid, rfl, hold⟩
    · by_cases hdone : (s.mark.insert k .entered)[p]? = some .done
      · refine Or.inl ((w.done p).mp ?_)
        rw [ExtTreeMap.getElem?_insert] at hdone
        split at hdone
        · cases hdone
        · exact hdone
      · refine Or.inr ⟨false, ?_⟩
        rw [← hpushed, List.mem_map]
        exact ⟨p, List.mem_reverse.mpr (List.mem_filter.mpr ⟨hp, by simpa using hdone⟩), rfl⟩
    · rcases w.waits _ k below hold p hp with hlisted | ⟨b, hb⟩
      · exact Or.inl hlisted
      · rcases List.mem_cons.mp hb with heq' | hb
        · obtain ⟨rfl, -⟩ := Prod.mk.injEq .. ▸ heq'
          exact Or.inr ⟨true, by simp⟩
        · exact Or.inr ⟨b, by simp [hb]⟩
  · rcases hsplit above k below heq with ⟨rfl, rfl⟩ | ⟨mid, rfl, hold⟩
    · exact .single (hmem he).1
    · have hn := w.upward _ k below hold (n, false) (by simp)
      rcases List.mem_append.mp he with he | he
      · exact .head (hmem he).1 hn
      · rcases List.mem_cons.mp he with rfl | he
        · exact hn
        · exact w.upward _ k below hold e (by simp [he])

end Walk

section Spec

variable {parents : κ → List κ} {nodes : List κ}
  (hacyclic : ∀ x, ¬ Relation.TransGen (fun p k => p ∈ parents k) x x)
  (hclosed : ∀ k ∈ nodes, ∀ p ∈ parents k, p ∈ nodes) (hnodup : nodes.Nodup)

include hacyclic hclosed hnodup

/-- The loop ends with an empty stack, and lists what was on it. -/
theorem visit_spec {fuel : Nat} {stack : List (κ × Bool)} {s : Progress κ}
    (w : Walk parents nodes stack s) (hfuel : stack.length + pending parents nodes s.mark ≤ fuel) :
    ∃ s', visit parents fuel stack s = some s' ∧ Walk parents nodes [] s' ∧ (∀ n ∈ s.order, n ∈ s'.order) ∧
      ∀ e ∈ stack, e.1 ∈ s'.order := by
  induction fuel generalizing stack s with
  | zero =>
      obtain rfl : stack = [] := List.length_eq_zero_iff.mp (by omega)
      exact ⟨s, by rw [visit], w, fun _ h => h, fun e he => absurd he List.not_mem_nil⟩
  | succ fuel ih =>
      cases stack with
      | nil => exact ⟨s, by rw [visit], w, fun _ h => h, fun e he => absurd he List.not_mem_nil⟩
      | cons e stack =>
          obtain ⟨n, processed⟩ := e
          rw [List.length_cons] at hfuel
          cases processed with
          | true =>
              obtain ⟨hmark, w'⟩ := w.list hacyclic
              have hkeys : pending parents nodes (s.mark.insert n .done)
                  = pending parents nodes s.mark := by
                have hin : n ∈ s.mark := by
                  rw [ExtTreeMap.mem_iff_isSome_getElem?, hmark]
                  rfl
                rw [pending, pending]
                congr 2
                refine List.filter_congr fun k _ => ?_
                by_cases hk : n = k
                · subst hk
                  simp [hin]
                · simp [ExtTreeMap.contains_insert, hk]
              have hdone : s.mark[n]? ≠ some .done := by simp [hmark]
              rw [visit, if_neg hdone]
              obtain ⟨s', hvisit, hw, hold, hstack⟩ := ih w' (by rw [hkeys]; omega)
              refine ⟨s', hvisit, hw, fun k hk => hold k (List.mem_append_left _ hk), fun e he => ?_⟩
              rcases List.mem_cons.mp he with rfl | he
              · exact hold n (by simp)
              · exact hstack e he
          | false =>
              rw [visit]
              split
              · rename_i hmark
                obtain ⟨hwhere, w'⟩ := w.skip hacyclic hmark
                obtain ⟨s', hvisit, hw, hold, hstack⟩ := ih w' (by omega)
                refine ⟨s', hvisit, hw, hold, fun e he => ?_⟩
                rcases List.mem_cons.mp he with rfl | he
                · exact hwhere.elim (hold n) fun hin => hstack (n, true) hin
                · exact hstack e he
              · rename_i hmark
                have hfresh : s.mark.contains n = false := Bool.eq_false_iff.mpr hmark
                have w' := w.enter hclosed hfresh
                have hin : n ∈ nodes := w.inside (n, false) (by simp)
                have hbudget : pending parents nodes (s.mark.insert n .entered)
                    + ((parents n).length + 1) = pending parents nodes s.mark :=
                  pending_insert hnodup hin hfresh .entered
                have hlen := List.length_filter_le
                  (fun p => (s.mark.insert n .entered)[p]? ≠ some .done) (parents n)
                obtain ⟨s', hvisit, hw, hold, hstack⟩ := ih w' (by
                  simp only [List.length_append, List.length_map, List.length_reverse,
                    List.length_cons]
                  omega)
                refine ⟨s', hvisit, hw, hold, fun e he => ?_⟩
                rcases List.mem_cons.mp he with rfl | he
                · exact hstack (n, true) (by simp)
                · exact hstack e (by simp [he])

/-- A start is listed, with the fuel there is. -/
theorem visitStart_spec {start : κ} {s : Progress κ} (hstart : start ∈ nodes) (w : Walk parents nodes [] s) :
    ∃ s', visitStart parents (orderFuel parents nodes) s start = some s' ∧ Walk parents nodes [] s' ∧
      (∀ n ∈ s.order, n ∈ s'.order) ∧ start ∈ s'.order := by
  rw [visitStart]
  by_cases hdone : s.mark[start]? = some .done
  · rw [if_pos hdone]
    exact ⟨s, rfl, w, fun _ h => h, (w.done start).mp hdone⟩
  · have wstart : Walk parents nodes [(start, false)] s := by
      refine ⟨w.done, fun n => ?_, fun e he => ?_, w.listed, w.nodup, w.first,
        fun above n below heq => ?_, fun above n below heq => ?_⟩
      · rw [w.entered n]
        simp
      · rw [List.mem_singleton.mp he]
        exact hstart
      · have hmem : (n, true) ∈ [(start, false)] := by rw [heq]; simp
        simp at hmem
      · have hmem : (n, true) ∈ [(start, false)] := by rw [heq]; simp
        simp at hmem
    have hpending : pending parents nodes s.mark ≤ (nodes.map fun n => (parents n).length + 1).sum :=
      (List.filter_sublist.map _).sum_le_sum (by simp)
    have hfuel : [(start, false)].length + pending parents nodes s.mark ≤ orderFuel parents nodes := by
      rw [orderFuel, List.length_singleton]
      omega
    rw [if_neg hdone]
    obtain ⟨s', hvisit, hw, hold, hlisted⟩ := visit_spec hacyclic hclosed hnodup wstart hfuel
    exact ⟨s', hvisit, hw, hold, hlisted (start, false) List.mem_cons_self⟩

/-- All starts are listed. -/
theorem visitStarts_spec {starts : List κ} {s : Progress κ} (hstarts : ∀ n ∈ starts, n ∈ nodes)
    (w : Walk parents nodes [] s) :
    ∃ s', starts.foldlM (visitStart parents (orderFuel parents nodes)) s = some s' ∧ Walk parents nodes [] s' ∧
      (∀ n ∈ s.order, n ∈ s'.order) ∧ ∀ n ∈ starts, n ∈ s'.order := by
  induction starts generalizing s with
  | nil => exact ⟨s, rfl, w, fun _ h => h, fun n hn => absurd hn List.not_mem_nil⟩
  | cons start starts ih =>
      obtain ⟨s', hvisit, w', hold, hlisted⟩ :=
        visitStart_spec hacyclic hclosed hnodup (hstarts start List.mem_cons_self) w
      obtain ⟨s'', hvisits, w'', hold', hlisted'⟩ := ih (fun n hn => hstarts n (List.mem_cons_of_mem start hn)) w'
      refine ⟨s'', ?_, w'', fun n hn => hold' n (hold n hn), fun n hn => ?_⟩
      · rw [List.foldlM_cons, hvisit]
        exact hvisits
      · rcases List.mem_cons.mp hn with rfl | hn
        · exact hold' n hlisted
        · exact hlisted' n hn

/-- **The post-order of an acyclic graph** ends, and lists every node once, after its parents. -/
theorem order_spec {starts : List κ} (hstarts : starts.Perm nodes) :
    ∃ listed, order parents (orderFuel parents nodes) starts = some listed ∧ listed.Perm nodes ∧
      ParentsFirst parents listed := by
  have wempty : Walk parents nodes [] ({} : Progress κ) :=
    ⟨by simp, by simp, by simp, by simp, List.nodup_nil, fun earlier n later heq => by simp at heq,
      fun above n below heq => by simp at heq, fun above n below heq => by simp at heq⟩
  obtain ⟨s, hvisits, hw, -, hlisted⟩ :=
    visitStarts_spec hacyclic hclosed hnodup (fun n hn => hstarts.mem_iff.mp hn) wempty
  refine ⟨s.order, by rw [order, hvisits, Option.map_some], ?_, hw.first⟩
  exact (List.perm_ext_iff_of_nodup hw.nodup hnodup).mpr fun n =>
    ⟨hw.listed n, fun hn => hlisted n (hstarts.mem_iff.mpr hn)⟩

end Spec

end Postorder

end HassanNode
