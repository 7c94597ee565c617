import Mathlib

/-!
# HassanNode.Lib.Windows

Counting in windows, in general. Times are cut into windows, of which only the first
`quota` elements count. When windows start at least a `span` apart and what counts of one
lies within a `span` of its start, an interval of that length meets at most two of them.
So there are never more than `quota` in an interval exactly when no two windows that
follow each other have too many across their border (`Windows.quota_iff`).
-/

namespace HassanNode

namespace Windows

/-- Cut times into windows: a time joins the window at hand or opens the next one. -/
def windowsFrom (joins : List Nat → Nat → Bool) (w : List Nat) : List Nat → List (List Nat)
  | [] => [w]
  | t :: ts => if joins w t then windowsFrom joins (w ++ [t]) ts else w :: windowsFrom joins [t] ts

/-- The windows of some times. -/
def windows (joins : List Nat → Nat → Bool) : List Nat → List (List Nat)
  | [] => []
  | t :: ts => windowsFrom joins [t] ts

/-- Where a window starts. -/
def start (w : List Nat) : Nat := w.headD 0

/-- The times in an interval of length `span`. -/
def within (span t : Nat) (xs : List Nat) : List Nat := xs.filter fun x => t ≤ x ∧ x < t + span

variable {span quota t : Nat} {xs ys w w' : List Nat} {ws : List (List Nat)}

theorem within_append : within span t (xs ++ ys) = within span t xs ++ within span t ys := List.filter_append _ _

theorem mem_within {x : Nat} : x ∈ within span t xs ↔ x ∈ xs ∧ t ≤ x ∧ x < t + span := by
  rw [within, List.mem_filter, decide_eq_true_iff]

theorem length_within_le : (within span t xs).length ≤ xs.length := List.length_filter_le _ _

theorem length_filter_le_of_imp {p q : Nat → Bool} (h : ∀ x ∈ xs, p x = true → q x = true) :
    (xs.filter p).length ≤ (xs.filter q).length := by
  rw [← List.countP_eq_length_filter, ← List.countP_eq_length_filter]
  exact List.countP_mono_left h

/-! ### Two windows -/

/-- Across the border of two windows there are at most `quota`: those from `a` on in the
first and those up to `b` in the second, when `b` is less than a `span` after `a`. -/
def BorderFits (span quota : Nat) (xs ys : List Nat) : Prop :=
  ∀ a ∈ xs, ∀ b ∈ ys, b < a + span → (xs.filter (a ≤ ·)).length + (ys.filter (· ≤ b)).length ≤ quota

/-- The first and the last in an interval. -/
theorem exists_bounds (hne : xs ≠ []) : (∃ a ∈ xs, ∀ x ∈ xs, a ≤ x) ∧ ∃ b ∈ xs, ∀ x ∈ xs, x ≤ b := by
  have hsome : xs.toFinset.Nonempty := (List.toFinset_nonempty_iff xs).mpr hne
  obtain ⟨a, ha, hleast⟩ := xs.toFinset.exists_min_image id hsome
  obtain ⟨b, hb, hmost⟩ := xs.toFinset.exists_max_image id hsome
  exact ⟨⟨a, List.mem_toFinset.mp ha, fun x hx => hleast x (List.mem_toFinset.mpr hx)⟩,
    b, List.mem_toFinset.mp hb, fun x hx => hmost x (List.mem_toFinset.mpr hx)⟩

/-- Two windows within the quota have at most the quota in every interval exactly when their
border fits. -/
theorem border_iff (hxs : xs.length ≤ quota) (hys : ys.length ≤ quota) (hspan : ∀ a ∈ xs, ∀ x ∈ xs, x < a + span)
    (horder : ∀ a ∈ xs, ∀ b ∈ ys, a ≤ b) :
    (∀ t, (within span t (xs ++ ys)).length ≤ quota) ↔ BorderFits span quota xs ys := by
  constructor
  · intro h a ha b hb hclose
    have hfirst : (xs.filter (a ≤ ·)).length ≤ (within span a xs).length :=
      length_filter_le_of_imp fun x hx hle => decide_eq_true ⟨of_decide_eq_true hle, hspan a ha x hx⟩
    have hsecond : (ys.filter (· ≤ b)).length ≤ (within span a ys).length :=
      length_filter_le_of_imp fun x hx hle =>
        decide_eq_true ⟨horder a ha x hx, lt_of_le_of_lt (of_decide_eq_true hle) hclose⟩
    have hboth := h a
    rw [within_append, List.length_append] at hboth
    omega
  · intro h t
    rw [within_append, List.length_append]
    by_cases hnone : within span t xs = []
    · rw [hnone, List.length_nil, Nat.zero_add]
      exact length_within_le.trans hys
    · by_cases hnone' : within span t ys = []
      · rw [hnone', List.length_nil, Nat.add_zero]
        exact length_within_le.trans hxs
      · obtain ⟨a, ha, hleast⟩ := (exists_bounds hnone).1
        obtain ⟨b, hb, hmost⟩ := (exists_bounds hnone').2
        obtain ⟨hax, hat, -⟩ := mem_within.mp ha
        obtain ⟨hby, -, hbt⟩ := mem_within.mp hb
        have hclose : b < a + span := lt_of_lt_of_le hbt (Nat.add_le_add_right hat span)
        have hfirst : (within span t xs).length ≤ (xs.filter (a ≤ ·)).length :=
          length_filter_le_of_imp fun x hx hin => decide_eq_true (hleast x (List.mem_filter.mpr ⟨hx, hin⟩))
        have hsecond : (within span t ys).length ≤ (ys.filter (· ≤ b)).length :=
          length_filter_le_of_imp fun x hx hin => decide_eq_true (hmost x (List.mem_filter.mpr ⟨hx, hin⟩))
        have hboth := h a hax b hby hclose
        omega

/-! ### All windows -/

/-- What counts of a window. -/
def counted (quota : Nat) (w : List Nat) : List Nat := w.take quota

/-- What counts of each window lies within a span of its start, and the windows start a
span apart. -/
structure Paced (span quota : Nat) (ws : List (List Nat)) : Prop where
  spans : ∀ w ∈ ws, ∀ a ∈ counted quota w, start w ≤ a ∧ a < start w + span
  apart : ws.Pairwise fun w w' => start w + span ≤ start w'

theorem length_counted_le : (counted quota w).length ≤ quota := List.length_take_le _ _

/-- Never more than the quota in an interval. -/
def QuotaHolds (span quota : Nat) (ws : List (List Nat)) : Prop :=
  ∀ t, (within span t (ws.flatMap (counted quota))).length ≤ quota

/-- Every two windows that follow each other fit across their border. -/
def BordersFit (span quota : Nat) (ws : List (List Nat)) : Prop :=
  ∀ w w', [w, w'] <:+: ws → BorderFits span quota (counted quota w) (counted quota w')

theorem Paced.tail (h : Paced span quota (w :: ws)) : Paced span quota ws :=
  ⟨fun v hv => h.spans v (List.mem_cons_of_mem w hv), (List.pairwise_cons.mp h.apart).2⟩

/-- Two windows that follow each other, as a pair on its own. -/
theorem Paced.border_iff (h : Paced span quota (w :: w' :: ws)) :
    (∀ t, (within span t (counted quota w ++ counted quota w')).length ≤ quota) ↔
      BorderFits span quota (counted quota w) (counted quota w') := by
  have hfirst := h.spans w List.mem_cons_self
  have hsecond := h.spans w' (List.mem_cons_of_mem w List.mem_cons_self)
  have hapart := (List.pairwise_cons.mp h.apart).1 w' List.mem_cons_self
  refine Windows.border_iff length_counted_le length_counted_le (fun a ha x hx => ?_) fun a ha b hb => ?_
  · have hax := hfirst a ha
    have hxx := hfirst x hx
    omega
  · have hax := hfirst a ha
    have hbx := hsecond b hb
    omega

/-- **The quota holds exactly when the borders fit.** -/
theorem quota_iff (h : Paced span quota ws) : QuotaHolds span quota ws ↔ BordersFit span quota ws := by
  induction ws with
  | nil =>
      refine ⟨fun _ w w' hinfix => ?_, fun _ t => Nat.zero_le _⟩
      exact absurd (List.infix_nil.mp hinfix) (List.cons_ne_nil _ _)
  | cons w ws ih =>
      cases ws with
      | nil =>
          refine ⟨fun _ v v' hinfix => ?_, fun _ t => ?_⟩
          · have hlen := hinfix.length_le
            simp at hlen
          · rw [List.flatMap_cons, List.flatMap_nil, List.append_nil]
            exact length_within_le.trans length_counted_le
      | cons w' ws =>
          have hpair := h.border_iff
          have hrest := ih h.tail
          constructor
          · intro hquota v v' hinfix
            rcases List.infix_cons_iff.mp hinfix with hfront | hlater
            · obtain ⟨rfl, hnext⟩ := List.cons_prefix_cons.mp hfront
              obtain ⟨rfl, -⟩ := List.cons_prefix_cons.mp hnext
              refine hpair.mp fun t => le_trans ?_ (hquota t)
              rw [List.flatMap_cons, List.flatMap_cons, ← List.append_assoc]
              exact ((List.sublist_append_left _ _).filter _).length_le
            · refine hrest.mp (fun t => le_trans ?_ (hquota t)) v v' hlater
              rw [List.flatMap_cons (x := w), within_append, List.length_append]
              exact Nat.le_add_left _ _
          · intro hborders t
            by_cases hnone : within span t (counted quota w) = []
            · have hlater : BordersFit span quota (w' :: ws) := fun v v' hinfix =>
                hborders v v' (List.infix_cons_iff.mpr (Or.inr hinfix))
              rw [List.flatMap_cons, within_append, hnone, List.nil_append]
              exact hrest.mpr hlater t
            · -- an interval that meets the first window ends before the third
              have hgone : within span t (ws.flatMap (counted quota)) = [] := by
                obtain ⟨a, ha⟩ := List.exists_mem_of_ne_nil _ hnone
                obtain ⟨hain, hat, -⟩ := mem_within.mp ha
                refine List.filter_eq_nil_iff.mpr fun x hx hin => ?_
                obtain ⟨-, hxt⟩ := of_decide_eq_true hin
                obtain ⟨v, hv, hxv⟩ := List.mem_flatMap.mp hx
                have haw := h.spans w List.mem_cons_self a hain
                have hxw := h.spans v (List.mem_cons_of_mem w (List.mem_cons_of_mem w' hv)) x hxv
                have hnext := (List.pairwise_cons.mp h.apart).1 w' List.mem_cons_self
                have hthird := (List.pairwise_cons.mp h.tail.apart).1 v hv
                omega
              have hfit := hborders w w' ⟨[], ws, rfl⟩
              rw [List.flatMap_cons, List.flatMap_cons, ← List.append_assoc, within_append, hgone, List.append_nil]
              exact hpair.mpr hfit t

/-! ### Windows of ordered times -/

section Ordered

variable {joins : List Nat → Nat → Bool} {ts : List Nat}

theorem start_concat (hne : w ≠ []) : start (w ++ [t]) = start w := by
  obtain ⟨x, xs, rfl⟩ := List.exists_cons_of_ne_nil hne
  rfl

/-- A window starts with the window at hand or at one of the times. -/
theorem start_windowsFrom (hne : w ≠ []) (hw : w' ∈ windowsFrom joins w ts) : start w' = start w ∨ start w' ∈ ts := by
  induction ts generalizing w with
  | nil =>
      obtain rfl := List.mem_singleton.mp hw
      exact Or.inl rfl
  | cons t ts ih =>
      rw [windowsFrom] at hw
      split at hw
      · rcases ih (by simp) hw with hstart | hlater
        · exact Or.inl (hstart.trans (start_concat hne))
        · exact Or.inr (List.mem_cons_of_mem t hlater)
      · rcases List.mem_cons.mp hw with rfl | hw
        · exact Or.inl rfl
        · rcases ih (List.cons_ne_nil t []) hw with hstart | hlater
          · exact Or.inr (hstart ▸ List.mem_cons_self)
          · exact Or.inr (List.mem_cons_of_mem t hlater)

/-- **Windows of ordered times are paced**, when what joins a window within the quota comes
within a span of its start, and what does not join it comes a span after its start. -/
theorem paced_windowsFrom (hspan : 0 < span)
    (hjoin : ∀ w t, joins w t = true → w.length < quota → t < start w + span)
    (hopen : ∀ w t, w ≠ [] → (w ++ [t]).Pairwise (· ≤ ·) → joins w t = false → start w + span ≤ t)
    (hne : w ≠ []) (hw : ∀ a ∈ counted quota w, start w ≤ a ∧ a < start w + span)
    (hsorted : (w ++ ts).Pairwise (· ≤ ·)) : Paced span quota (windowsFrom joins w ts) := by
  induction ts generalizing w with
  | nil =>
      refine ⟨fun v hv => ?_, List.pairwise_singleton _ _⟩
      obtain rfl := List.mem_singleton.mp hv
      exact hw
  | cons t ts ih =>
      have hlater : ∀ x ∈ w, x ≤ t := fun x hx =>
        (List.pairwise_append.mp hsorted).2.2 x hx t List.mem_cons_self
      rw [windowsFrom]
      cases hjoins : joins w t with
      | true =>
          rw [if_pos rfl]
          refine ih (by simp) (fun a ha => ?_) (by rw [List.append_assoc]; exact hsorted)
          rw [start_concat hne]
          rw [counted, List.take_append] at ha
          rcases List.mem_append.mp ha with ha | ha
          · exact hw a ha
          · have hroom : w.length < quota := by
              by_contra hfull
              rw [Nat.sub_eq_zero_of_le (Nat.not_lt.mp hfull), List.take_zero] at ha
              cases ha
            obtain rfl := List.mem_singleton.mp (List.mem_of_mem_take ha)
            have hstart : start w ∈ w := by
              obtain ⟨x, xs, rfl⟩ := List.exists_cons_of_ne_nil hne
              exact List.mem_cons_self
            exact ⟨hlater _ hstart, hjoin w a hjoins hroom⟩
      | false =>
          rw [if_neg Bool.false_ne_true]
          have hrest := (List.pairwise_append.mp hsorted).2.1
          have htail : Paced span quota (windowsFrom joins [t] ts) := by
            refine ih (List.cons_ne_nil t []) (fun a ha => ?_) hrest
            obtain rfl := List.mem_singleton.mp (List.mem_of_mem_take ha)
            exact ⟨Nat.le_refl a, Nat.lt_add_of_pos_right hspan⟩
          have hfront : (w ++ [t]).Pairwise (· ≤ ·) := by
            refine hsorted.sublist ?_
            exact (List.singleton_sublist.mpr List.mem_cons_self).append_left w
          have hgap := hopen w t hne hfront hjoins
          refine ⟨fun v hv => ?_, List.pairwise_cons.mpr ⟨fun v hv => ?_, htail.apart⟩⟩
          · rcases List.mem_cons.mp hv with rfl | hv
            · exact hw
            · exact htail.spans v hv
          · rcases start_windowsFrom (List.cons_ne_nil t []) hv with hstart | hmem
            · rw [hstart]
              exact hgap
            · exact hgap.trans ((List.pairwise_cons.mp hrest).1 _ hmem)

end Ordered

end Windows

end HassanNode
