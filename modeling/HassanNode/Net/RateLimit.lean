import Mathlib
import HassanNode.Lib.Windows
import HassanNode.Net.Ip

/-!
# HassanNode.Net.RateLimit

The rate limiter of the API (`security.rs`). Instants and durations are in nanoseconds.

For one IP the limiter does what its request times alone decide: they fall into windows,
of which the first `MAX_REQUESTS_PER_WINDOW` requests are accepted, and a window that
grows past the ban threshold swallows what comes while the ban lasts (`RateLimiter.joins`). Other
IPs and the pruning of idle entries change nothing (`RateLimiter.accepted_eq`). So the
limit is a rolling one exactly when no two windows that follow each other have too many
requests across their border (`RateLimiter.rolling_iff`).
-/

namespace HassanNode

def second : Nat := 10 ^ 9
def maxRequestsPerWindow : Nat := 120
def window : Nat := 60 * second
def banThreshold : Nat := maxRequestsPerWindow * 3
def banDuration : Nat := 300 * second
def ipEntryTtl : Nat := 600 * second

structure IpState where
  windowStart : Nat
  lastSeen : Nat
  count : Nat
  bannedUntil : Option Nat
  deriving DecidableEq, Repr

/-- The state map of the limiter. -/
abbrev RateLimiter := IpAddr → Option IpState

namespace RateLimiter

/-- `new`. -/
def init : RateLimiter := fun _ => none

/-- Whether `retain` keeps an entry. -/
def keeps (now : Nat) (s : IpState) : Bool :=
  now - s.lastSeen < ipEntryTtl || s.bannedUntil.elim false (now < ·)

def banMessage : String := "Rate limit exceeded repeatedly; IP temporarily banned"

/-- The counting part of `check`, for an IP that is not banned. -/
def countRequest (now : Nat) (entry : IpState) : IpState × Except String Unit :=
  let entry := if now - entry.windowStart ≥ window then { entry with windowStart := now, count := 0 } else entry
  let entry := { entry with count := entry.count + 1 }
  if entry.count > banThreshold then ({ entry with bannedUntil := some (now + banDuration) }, .error banMessage)
  else if entry.count > maxRequestsPerWindow then
    (entry, .error s!"Rate limit exceeded: max {maxRequestsPerWindow} requests / {window / second}s")
  else (entry, .ok ())

/-- What `check` does to the entry of the IP. -/
def checkEntry (now : Nat) (entry : IpState) : IpState × Except String Unit :=
  let entry := { entry with lastSeen := now }
  match entry.bannedUntil with
  | some expiry =>
    if now < expiry then (entry, .error s!"IP temporarily banned ({(expiry - now) / second}s remaining)")
    else countRequest now { entry with bannedUntil := none, count := 0, windowStart := now }
  | none => countRequest now entry

/-- `check`, at the instant `now`. -/
def check (map : RateLimiter) (now : Nat) (ip : IpAddr) : RateLimiter × Except String Unit :=
  let map : RateLimiter := fun ip => (map ip).filter (keeps now)
  let entry := (map ip).getD ⟨now, now, 0, none⟩
  let (entry, answer) := checkEntry now entry
  (Function.update map ip (some entry), answer)

/-! ### Runs -/

/-- A call of `check`: when, and for which IP. -/
abbrev Call := Nat × IpAddr

/-- The limiter after some calls. -/
def after (map : RateLimiter) (calls : List Call) : RateLimiter :=
  calls.foldl (fun map call => (map.check call.1 call.2).1) map

/-- When calls from an IP were accepted. -/
def accepted (ip : IpAddr) (map : RateLimiter) : List Call → List Nat
  | [] => []
  | call :: calls =>
    let r := map.check call.1 call.2
    if call.2 = ip ∧ r.2 = .ok () then call.1 :: accepted ip r.1 calls else accepted ip r.1 calls

/-- When an IP called. -/
def requestTimes (ip : IpAddr) (calls : List Call) : List Nat :=
  (calls.filter fun call => call.2 = ip).map Prod.fst

/-! ### Windows -/

open Windows

/-- Whether a request joins a window: until the window is over or, past the threshold,
until the ban is. -/
def joins (w : List Nat) (t : Nat) : Bool :=
  match w[banThreshold]? with
  | some banned => t < banned + banDuration
  | none => w ≠ [] && t < start w + window

/-- The window at hand after one more request. -/
def extend (w : List Nat) (t : Nat) : List Nat := if joins w t then w ++ [t] else [t]

/-- An entry holds what a check needs to know of a window. -/
structure Holds (s : IpState) (w : List Nat) : Prop where
  nonempty : w ≠ []
  windowStart : s.windowStart = start w
  lastSeen : w.getLast? = some s.lastSeen
  count : s.count = min w.length (banThreshold + 1)
  bannedUntil : s.bannedUntil = w[banThreshold]?.map (· + banDuration)

/-- The entry of an IP, at an instant: it holds the window, or there is none and the window is over. -/
def Tracks (entry : Option IpState) (w : List Nat) (now : Nat) : Prop :=
  match entry with
  | some s => Holds s w
  | none => ∀ t, now ≤ t → joins w t = false

/-! ### One request -/

theorem window_pos : 0 < window := by norm_num [window, second]

theorem window_le_banDuration : window ≤ banDuration := by norm_num [window, banDuration, second]

theorem window_le_ipEntryTtl : window ≤ ipEntryTtl := by norm_num [window, ipEntryTtl, second]

theorem maxRequestsPerWindow_le_banThreshold : maxRequestsPerWindow ≤ banThreshold :=
  Nat.le_mul_of_pos_right _ (by norm_num)

variable {w v : List Nat} {s e : IpState} {t now : Nat}

theorem joins_of_banned {banned : Nat} (h : w[banThreshold]? = some banned) :
    joins w t = decide (t < banned + banDuration) := by rw [joins, h]

theorem joins_of_free (h : w.length ≤ banThreshold) : joins w t = (decide (w ≠ []) && decide (t < start w + window)) := by
  rw [joins, List.getElem?_eq_none h]

/-- Counting a request of the window at hand. -/
theorem countRequest_holds (hcount : e.count = v.length) (hfree : v.length ≤ banThreshold) (hseen : e.lastSeen = t)
    (hnone : e.bannedUntil = none) (hstart : e.windowStart = start (v ++ [t])) (hclose : t - e.windowStart < window) :
    Holds (countRequest t e).1 (v ++ [t]) ∧
      ((countRequest t e).2 = .ok () ↔ (v ++ [t]).length ≤ maxRequestsPerWindow) := by
  have hlen : (v ++ [t]).length = v.length + 1 := by simp
  have hlast : (v ++ [t]).getLast? = some e.lastSeen := by rw [hseen, List.getLast?_concat]
  rw [countRequest, if_neg (Nat.not_le.mpr hclose)]
  dsimp only
  rw [hcount]
  by_cases hban : v.length + 1 > banThreshold
  · have heq : v.length = banThreshold := by omega
    rw [if_pos hban]
    refine ⟨⟨by simp, hstart, hlast, ?_, ?_⟩, ⟨(fun hok => nomatch hok), fun hle => ?_⟩⟩
    · show v.length + 1 = _
      rw [hlen, heq, Nat.min_self]
    · show some (t + banDuration) = _
      rw [← heq, List.getElem?_concat_length]
      rfl
    · rw [hlen, heq] at hle
      exact absurd hle (by decide)
  · rw [if_neg hban]
    have hholds : ∀ e' : IpState, e'.windowStart = e.windowStart → e'.lastSeen = e.lastSeen → e'.count = v.length + 1 →
        e'.bannedUntil = none → Holds e' (v ++ [t]) := by
      intro e' hs hl hc hb
      refine ⟨by simp, hs.trans hstart, hl ▸ hlast, ?_, ?_⟩
      · rw [hc, hlen]
        omega
      · rw [hb, List.getElem?_eq_none (by omega)]
        rfl
    by_cases hmany : v.length + 1 > maxRequestsPerWindow
    · rw [if_pos hmany]
      refine ⟨hholds _ rfl rfl rfl hnone, ⟨(fun hok => nomatch hok), fun hle => absurd hle ?_⟩⟩
      rw [hlen]
      exact Nat.not_le.mpr hmany
    · rw [if_neg hmany]
      refine ⟨hholds _ rfl rfl rfl hnone, ⟨fun _ => ?_, fun _ => rfl⟩⟩
      rw [hlen]
      exact Nat.not_lt.mp hmany

/-- The first request of a window. -/
theorem countRequest_opens (hseen : e.lastSeen = t) (hnone : e.bannedUntil = none) (hcount : e.count = 0)
    (hstart : e.windowStart = t) :
    Holds (countRequest t e).1 [t] ∧ ((countRequest t e).2 = .ok () ↔ [t].length ≤ maxRequestsPerWindow) := by
  have hclose : t - e.windowStart < window := by
    rw [hstart, Nat.sub_self]
    exact window_pos
  exact countRequest_holds (v := []) hcount (Nat.zero_le _) hseen hnone hstart hclose

/-- **One request**: the entry holds the next window, and the request is accepted when it is
among the first of its window. -/
theorem checkEntry_holds (h : Holds s w) (t : Nat) :
    Holds (checkEntry t s).1 (extend w t) ∧
      ((checkEntry t s).2 = .ok () ↔ (extend w t).length ≤ maxRequestsPerWindow) := by
  cases hbanned : w[banThreshold]? with
  | some banned =>
      have hlong : banThreshold < w.length := (List.getElem?_eq_some_iff.mp hbanned).1
      have hexpiry : s.bannedUntil = some (banned + banDuration) := by rw [h.bannedUntil, hbanned]; rfl
      rw [checkEntry]
      simp only [hexpiry]
      rw [extend, joins_of_banned hbanned]
      by_cases hlasts : t < banned + banDuration
      · rw [if_pos hlasts, if_pos (decide_eq_true hlasts)]
        refine ⟨⟨by simp, ?_, by simp, ?_, ?_⟩, ⟨(fun hok => nomatch hok), fun hle => ?_⟩⟩
        · exact h.windowStart.trans (start_concat h.nonempty).symm
        · show s.count = _
          rw [h.count, List.length_append, List.length_singleton]
          omega
        · show some (banned + banDuration) = _
          rw [List.getElem?_append_left hlong, hbanned]
          rfl
        · rw [List.length_append, List.length_singleton] at hle
          have hless := maxRequestsPerWindow_le_banThreshold
          omega
      · rw [if_neg hlasts, if_neg fun hd => hlasts (of_decide_eq_true hd)]
        exact countRequest_opens rfl rfl rfl rfl
  | none =>
      have hfree : w.length ≤ banThreshold := List.getElem?_eq_none_iff.mp hbanned
      have hexpiry : s.bannedUntil = none := by rw [h.bannedUntil, hbanned]; rfl
      have hcount : s.count = w.length := by rw [h.count]; omega
      rw [checkEntry]
      simp only [hexpiry]
      rw [extend, joins_of_free hfree, decide_eq_true h.nonempty, Bool.true_and]
      by_cases hover : t < start w + window
      · rw [if_pos (decide_eq_true hover)]
        refine countRequest_holds hcount hfree rfl rfl (h.windowStart.trans (start_concat h.nonempty).symm) ?_
        show t - s.windowStart < window
        have hpos := window_pos
        rw [h.windowStart]
        omega
      · rw [if_neg fun hd => hover (of_decide_eq_true hd)]
        have hreset : t - s.windowStart ≥ window := by
          rw [h.windowStart]
          omega
        have hsame : countRequest t { s with lastSeen := t, bannedUntil := none }
            = countRequest t { s with lastSeen := t, bannedUntil := none, windowStart := t, count := 0 } := by
          have hnot : ¬ (t - t ≥ window) := by
            rw [Nat.sub_self]
            exact Nat.not_le.mpr window_pos
          rw [countRequest, countRequest, if_pos hreset, if_neg hnot]
        rw [hsame]
        exact countRequest_opens rfl rfl rfl rfl

/-- An entry that is dropped holds a window that is over. -/
theorem over_of_dropped (h : Holds s w) (hsorted : w.Pairwise (· ≤ ·)) (hdrop : keeps now s = false) (ht : now ≤ t) :
    joins w t = false := by
  rw [keeps, Bool.or_eq_false_iff, decide_eq_false_iff_not] at hdrop
  obtain ⟨hidle, hexpired⟩ := hdrop
  cases hbanned : w[banThreshold]? with
  | some banned =>
      rw [h.bannedUntil, hbanned, Option.map_some, Option.elim_some, decide_eq_false_iff_not] at hexpired
      rw [joins_of_banned hbanned]
      exact decide_eq_false fun hlate => hexpired (lt_of_le_of_lt ht hlate)
  | none =>
      have hstart : start w ≤ s.lastSeen := by
        obtain ⟨x, xs, rfl⟩ := List.exists_cons_of_ne_nil h.nonempty
        have hmem := List.mem_of_getLast? h.lastSeen
        rcases List.mem_cons.mp hmem with heq | hmem
        · exact heq.ge
        · exact (List.pairwise_cons.mp hsorted).1 _ hmem
      have hpos := window_pos
      have hspan := window_le_ipEntryTtl
      rw [joins_of_free (List.getElem?_eq_none_iff.mp hbanned), Bool.and_eq_false_iff]
      exact Or.inr (decide_eq_false (by omega))

/-! ### One call -/

variable {ip other : IpAddr} {entry : Option IpState} {map : RateLimiter} {calls : List Call}

/-- The entry of an IP at a later call, of whichever IP. -/
theorem Tracks.prune (h : Tracks entry w now) (hsorted : w.Pairwise (· ≤ ·)) (ht : now ≤ t) :
    Tracks (entry.filter (keeps t)) w t := by
  cases entry with
  | none => exact fun x hx => h x (ht.trans hx)
  | some s =>
      cases hkeeps : keeps t s with
      | true =>
          rw [Option.filter_some_pos hkeeps]
          exact h
      | false =>
          rw [Option.filter_some_neg (Bool.not_eq_true _ ▸ hkeeps)]
          exact fun x hx => over_of_dropped h hsorted hkeeps hx

/-- A check of the IP, on the entry that the pruning leaves. -/
theorem Tracks.checkEntry (h : Tracks entry w t) :
    Holds (checkEntry t (entry.getD ⟨t, t, 0, none⟩)).1 (extend w t) ∧
      ((checkEntry t (entry.getD ⟨t, t, 0, none⟩)).2 = .ok () ↔ (extend w t).length ≤ maxRequestsPerWindow) := by
  cases entry with
  | some s => exact checkEntry_holds h t
  | none =>
      rw [extend, h t (Nat.le_refl t)]
      exact countRequest_opens rfl rfl rfl rfl

theorem check_self : (map.check t ip).1 ip = some (checkEntry t (((map ip).filter (keeps t)).getD ⟨t, t, 0, none⟩)).1 := by
  simp only [check, Function.update_self]

theorem check_answer : (map.check t ip).2 = (checkEntry t (((map ip).filter (keeps t)).getD ⟨t, t, 0, none⟩)).2 := rfl

theorem check_other (hne : ip ≠ other) : (map.check t other).1 ip = (map ip).filter (keeps t) := by
  simp only [check, Function.update_of_ne hne]

/-! ### Runs -/

theorem requestTimes_own : requestTimes ip ((t, ip) :: calls) = t :: requestTimes ip calls := by simp [requestTimes]

theorem requestTimes_other (hne : ip ≠ other) : requestTimes ip ((t, other) :: calls) = requestTimes ip calls := by
  simp [requestTimes, hne.symm]

theorem extend_of_joins (h : joins w t = true) : extend w t = w ++ [t] := if_pos h

theorem extend_of_over (h : joins w t = false) : extend w t = [t] := if_neg (h ▸ Bool.false_ne_true)

/-- A window of times that have come, with one that comes now. -/
theorem extend_sorted (hsorted : w.Pairwise (· ≤ ·)) (hpast : ∀ x ∈ w, x ≤ t) :
    (extend w t).Pairwise (· ≤ ·) ∧ ∀ x ∈ extend w t, x ≤ t := by
  cases hjoins : joins w t with
  | true =>
      rw [extend_of_joins hjoins]
      refine ⟨List.pairwise_append.mpr ⟨hsorted, List.pairwise_singleton _ _, fun x hx y hy => ?_⟩, fun x hx => ?_⟩
      · exact List.mem_singleton.mp hy ▸ hpast x hx
      · rcases List.mem_append.mp hx with hx | hx
        · exact hpast x hx
        · exact (List.mem_singleton.mp hx).le
  | false =>
      rw [extend_of_over hjoins]
      exact ⟨List.pairwise_singleton _ _, fun x hx => (List.mem_singleton.mp hx).le⟩

/-- What counts of the windows, a request at a time. -/
theorem flatMap_windowsFrom_cons {ts : List Nat} :
    (windowsFrom joins w (t :: ts)).flatMap (counted maxRequestsPerWindow) =
      (if joins w t then [] else counted maxRequestsPerWindow w) ++
        (windowsFrom joins (extend w t) ts).flatMap (counted maxRequestsPerWindow) := by
  rw [windowsFrom]
  cases hjoins : joins w t with
  | true => rw [if_pos rfl, if_pos rfl, List.nil_append, extend_of_joins hjoins]
  | false => rw [if_neg Bool.false_ne_true, if_neg Bool.false_ne_true, List.flatMap_cons, extend_of_over hjoins]

/-- What counts of a window after one more request. -/
theorem counted_extend :
    counted maxRequestsPerWindow w ++ (if (extend w t).length ≤ maxRequestsPerWindow then [t] else []) =
      (if joins w t then [] else counted maxRequestsPerWindow w) ++ counted maxRequestsPerWindow (extend w t) := by
  cases hjoins : joins w t with
  | true =>
      rw [extend_of_joins hjoins, if_pos rfl, List.nil_append, counted, counted, List.take_append, List.length_append,
        List.length_singleton]
      by_cases hroom : w.length + 1 ≤ maxRequestsPerWindow
      · rw [if_pos hroom, List.take_of_length_le (l := [t]) (by rw [List.length_singleton]; omega)]
      · rw [if_neg hroom, Nat.sub_eq_zero_of_le (by omega), List.take_zero]
  | false =>
      have hone : [t].length ≤ maxRequestsPerWindow := by
        rw [List.length_singleton, maxRequestsPerWindow]
        norm_num
      rw [extend_of_over hjoins, if_pos hone, if_neg Bool.false_ne_true]
      rw [counted, counted, List.take_of_length_le hone]

/-- **A run**: from an entry that holds a window, what is accepted is what counts of the windows
of the request times. -/
theorem counted_append_accepted (htracks : Tracks (map ip) w now) (hw : w.Pairwise (· ≤ ·)) (hpast : ∀ x ∈ w, x ≤ now)
    (hnow : ∀ call ∈ calls, now ≤ call.1) (hsorted : (calls.map Prod.fst).Pairwise (· ≤ ·)) :
    counted maxRequestsPerWindow w ++ accepted ip map calls =
      (windowsFrom joins w (requestTimes ip calls)).flatMap (counted maxRequestsPerWindow) := by
  induction calls generalizing map w now with
  | nil => exact (List.append_nil _).trans (List.append_nil _).symm
  | cons call calls ih =>
      obtain ⟨t, caller⟩ := call
      have ht : now ≤ t := hnow _ List.mem_cons_self
      obtain ⟨hnext, hrest⟩ := List.pairwise_cons.mp hsorted
      have hlater : ∀ call ∈ calls, t ≤ call.1 := fun call hcall => hnext _ (List.mem_map_of_mem hcall)
      have hpruned := htracks.prune hw ht
      have hcome : ∀ x ∈ w, x ≤ t := fun x hx => (hpast x hx).trans ht
      rw [accepted]
      dsimp only
      by_cases hown : caller = ip
      · subst hown
        obtain ⟨hholds, hok⟩ := hpruned.checkEntry
        obtain ⟨hext, hbound⟩ := extend_sorted hw hcome
        have hself : Tracks ((map.check t caller).1 caller) (extend w t) t := by
          rw [check_self]
          exact hholds
        have hrun := ih hself hext hbound hlater hrest
        rw [requestTimes_own, flatMap_windowsFrom_cons, ← hrun]
        rw [← List.append_assoc, ← counted_extend, List.append_assoc, check_answer]
        by_cases hfits : (extend w t).length ≤ maxRequestsPerWindow
        · rw [if_pos ⟨rfl, hok.mpr hfits⟩, if_pos hfits, List.singleton_append]
        · rw [if_neg fun h => hfits (hok.mp h.2), if_neg hfits, List.nil_append]
      · rw [if_neg fun h => hown h.1, requestTimes_other (Ne.symm hown)]
        refine ih ?_ hw hcome hlater hrest
        rw [check_other (Ne.symm hown)]
        exact hpruned

/-- What an IP has accepted: of each window of its requests, the first ones. -/
theorem accepted_eq (hsorted : (calls.map Prod.fst).Pairwise (· ≤ ·)) :
    accepted ip init calls = (windows joins (requestTimes ip calls)).flatMap (counted maxRequestsPerWindow) := by
  have hfree : ∀ t, joins [] t = false := fun t => rfl
  have hempty : Tracks (init ip) [] 0 := fun t _ => hfree t
  have hrun := counted_append_accepted hempty List.Pairwise.nil (fun x hx => nomatch hx) (fun _ _ => Nat.zero_le _) hsorted
  rw [counted, List.take_nil, List.nil_append] at hrun
  rw [hrun]
  cases requestTimes ip calls with
  | nil => rfl
  | cons t ts => rfl

/-- The windows of the requests of an IP are paced. -/
theorem windows_paced {ts : List Nat} (hsorted : ts.Pairwise (· ≤ ·)) :
    Windows.Paced window maxRequestsPerWindow (windows joins ts) := by
  cases ts with
  | nil => exact ⟨(fun w hw => nomatch hw), List.Pairwise.nil⟩
  | cons t ts =>
      refine paced_windowsFrom window_pos (fun w x hjoins hroom => ?_) (fun w x hne hw hover => ?_) (List.cons_ne_nil t [])
        (fun a ha => ?_) hsorted
      · have hless := maxRequestsPerWindow_le_banThreshold
        rw [joins_of_free (by omega), Bool.and_eq_true] at hjoins
        exact of_decide_eq_true hjoins.2
      · cases hbanned : w[banThreshold]? with
        | some banned =>
            rw [joins_of_banned hbanned, decide_eq_false_iff_not] at hover
            have hstart : start w ≤ banned := by
              obtain ⟨y, ys, rfl⟩ := List.exists_cons_of_ne_nil hne
              rcases List.mem_cons.mp (List.mem_of_getElem? hbanned) with heq | hmem
              · exact heq.ge
              · exact (List.pairwise_cons.mp hw).1 _ (List.mem_append_left _ hmem)
            have hspan := window_le_banDuration
            omega
        | none =>
            rw [joins_of_free (List.getElem?_eq_none_iff.mp hbanned), decide_eq_true hne, Bool.true_and,
              decide_eq_false_iff_not] at hover
            exact Nat.not_lt.mp hover
      · obtain rfl := List.mem_singleton.mp (List.mem_of_mem_take ha)
        exact ⟨Nat.le_refl a, Nat.lt_add_of_pos_right window_pos⟩

/-! ### Bans -/

/-- While a ban lasts the other message is answered. -/
theorem ne_banMessage (n : Nat) : s!"IP temporarily banned ({n}s remaining)" ≠ banMessage := by
  intro heq
  have hchars := congrArg (fun m : String => m.toList.head?) heq
  simp [banMessage, toString] at hchars

theorem ne_banMessage' : s!"Rate limit exceeded: max {maxRequestsPerWindow} requests / {window / second}s" ≠ banMessage := by
  intro heq
  have hchars := congrArg (fun m : String => m.toList[19]?) heq
  simp [banMessage, toString] at hchars

theorem banned_of_countRequest (h : (countRequest t e).2 = .error banMessage) :
    (countRequest t e).1.bannedUntil = some (t + banDuration) := by
  rw [countRequest] at h ⊢
  dsimp only at h ⊢
  generalize (if t - e.windowStart ≥ window then { e with windowStart := t, count := 0 } else e) = entry at h ⊢
  by_cases hban : entry.count + 1 > banThreshold
  · rw [if_pos hban]
  · rw [if_neg hban] at h
    by_cases hmany : entry.count + 1 > maxRequestsPerWindow
    · rw [if_pos hmany] at h
      exact absurd (Except.error.inj h) ne_banMessage'
    · rw [if_neg hmany] at h
      exact nomatch h

/-- The message is answered when a ban is imposed. -/
theorem banned_of_banMessage (h : (checkEntry t s).2 = .error banMessage) :
    (checkEntry t s).1.bannedUntil = some (t + banDuration) := by
  rw [checkEntry] at h ⊢
  cases hban : s.bannedUntil with
  | none =>
      simp only [hban] at h ⊢
      exact banned_of_countRequest h
  | some expiry =>
      simp only [hban] at h ⊢
      by_cases hlasts : t < expiry
      · rw [if_pos hlasts] at h
        exact absurd (Except.error.inj h) (ne_banMessage _)
      · rw [if_neg hlasts] at h ⊢
        exact banned_of_countRequest h

theorem accepted_mem {x : Nat} (hx : x ∈ accepted ip map calls) : ∃ call ∈ calls, call.1 = x := by
  induction calls generalizing map with
  | nil => exact nomatch hx
  | cons call calls ih =>
      have hlater : x ∈ accepted ip (map.check call.1 call.2).1 calls → ∃ call' ∈ call :: calls, call'.1 = x := by
        intro hmem
        obtain ⟨call', hcall', heq⟩ := ih hmem
        exact ⟨call', List.mem_cons_of_mem call hcall', heq⟩
      rw [accepted] at hx
      split at hx
      · rcases List.mem_cons.mp hx with rfl | hmem
        · exact ⟨call, List.mem_cons_self, rfl⟩
        · exact hlater hmem
      · exact hlater hx

/-- **Nothing is accepted while a ban lasts.** -/
theorem accepted_of_banned {expiry : Nat} (hentry : map ip = some s) (hban : s.bannedUntil = some expiry)
    (hsorted : (calls.map Prod.fst).Pairwise (· ≤ ·)) : ∀ x ∈ accepted ip map calls, expiry ≤ x := by
  induction calls generalizing map s with
  | nil => exact fun x hx => nomatch hx
  | cons call calls ih =>
      obtain ⟨t, caller⟩ := call
      obtain ⟨hnext, hrest⟩ := List.pairwise_cons.mp hsorted
      rcases Nat.lt_or_ge t expiry with hlasts | hover
      · have hkept : (map ip).filter (keeps t) = some s := by
          rw [hentry, Option.filter_some_pos]
          rw [keeps, hban, Option.elim_some, decide_eq_true hlasts, Bool.or_true]
        rw [accepted]
        dsimp only
        by_cases hown : caller = ip
        · subst hown
          have hstill : checkEntry t s =
              ({ s with lastSeen := t }, .error s!"IP temporarily banned ({(expiry - t) / second}s remaining)") := by
            rw [checkEntry]
            simp only [hban, if_pos hlasts]
          have hself : (map.check t caller).1 caller =
              some (checkEntry t (((map caller).filter (keeps t)).getD ⟨t, t, 0, none⟩)).1 := check_self
          rw [hkept, Option.getD_some, hstill] at hself
          rw [check_answer, hkept, Option.getD_some, hstill, if_neg fun h => nomatch h.2]
          exact ih hself hban hrest
        · rw [if_neg fun h => hown h.1]
          exact ih ((check_other (Ne.symm hown)).trans hkept) hban hrest
      · intro x hx
        have hlater : ∀ call ∈ (t, caller) :: calls, expiry ≤ call.1 := by
          intro call hcall
          rcases List.mem_cons.mp hcall with rfl | hcall
          · exact hover
          · exact hover.trans (hnext _ (List.mem_map_of_mem hcall))
        obtain ⟨call, hcall, rfl⟩ := accepted_mem hx
        exact hlater call hcall

/-! ### The limit -/

/-- No interval of the length of a window has more accepted calls of the IP than the limit. -/
def RollingLimit (ip : IpAddr) (calls : List Call) : Prop :=
  ∀ t, (within window t (accepted ip init calls)).length ≤ maxRequestsPerWindow

/-- After a call that bans the IP none of its calls is accepted until the ban is over. -/
def BanHolds (ip : IpAddr) (calls : List Call) : Prop :=
  ∀ pre t post, calls = pre ++ (t, ip) :: post → ((after init pre).check t ip).2 = .error banMessage →
    ∀ x ∈ accepted ip ((after init pre).check t ip).1 post, t + banDuration ≤ x

theorem banHolds (hsorted : (calls.map Prod.fst).Pairwise (· ≤ ·)) : BanHolds ip calls := by
  rintro pre t post rfl hanswer
  rw [List.map_append, List.map_cons] at hsorted
  have hpost := (List.pairwise_cons.mp (List.pairwise_append.mp hsorted).2.1).2
  rw [check_answer] at hanswer
  exact accepted_of_banned check_self (banned_of_banMessage hanswer) hpost

theorem requestTimes_sorted (hsorted : (calls.map Prod.fst).Pairwise (· ≤ ·)) :
    (requestTimes ip calls).Pairwise (· ≤ ·) :=
  hsorted.sublist (List.filter_sublist.map _)

/-- Requests within the window at hand all join it. -/
theorem windowsFrom_close {ts rest : List Nat} (hne : w ≠ []) (hroom : w.length + ts.length ≤ banThreshold)
    (hclose : ∀ t ∈ ts, t < start w + window) :
    windowsFrom joins w (ts ++ rest) = windowsFrom joins (w ++ ts) rest := by
  induction ts generalizing w with
  | nil => rw [List.nil_append, List.append_nil]
  | cons t ts ih =>
      rw [List.length_cons] at hroom
      have hjoins : joins w t = true := by
        rw [joins_of_free (by omega), decide_eq_true hne, Bool.true_and]
        exact decide_eq_true (hclose t List.mem_cons_self)
      rw [List.cons_append, windowsFrom, if_pos hjoins, ih (by simp), List.append_assoc, List.singleton_append]
      · rw [List.length_append, List.length_singleton]
        omega
      · intro x hx
        rw [start_concat hne]
        exact hclose x (List.mem_cons_of_mem t hx)

/-- The calls of one IP. -/
theorem requestTimes_map (ts : List Nat) : requestTimes ip (ts.map (·, ip)) = ts := by
  induction ts with
  | nil => rfl
  | cons t ts ih => rw [List.map_cons, requestTimes_own, ih]

end RateLimiter

namespace Sample

open RateLimiter Windows

def clientIp : IpAddr := .v4 ⟨198, 51, 100, 7⟩

/-- A request opens the window, 119 come at its end and 120 in the next one. -/
def burstTimes : List Nat := 0 :: List.replicate 119 (59 * second) ++ 60 * second :: List.replicate 119 (60 * second)

def burst : List Call := burstTimes.map (·, clientIp)

theorem burst_sorted : (burst.map Prod.fst).Pairwise (· ≤ ·) := by
  have htimes : burst.map Prod.fst = burstTimes := by
    rw [burst, List.map_map]
    exact List.map_id _
  rw [htimes, burstTimes]
  simp [-List.reduceReplicate, List.pairwise_append, List.pairwise_replicate, second]

theorem burst_windows : windows joins burstTimes =
    [0 :: List.replicate 119 (59 * second), 60 * second :: List.replicate 119 (60 * second)] := by
  have hfirst : windowsFrom joins [0] (List.replicate 119 (59 * second) ++ 60 * second :: List.replicate 119 (60 * second)) =
      windowsFrom joins ([0] ++ List.replicate 119 (59 * second)) (60 * second :: List.replicate 119 (60 * second)) :=
    windowsFrom_close (List.cons_ne_nil _ _) (by simp [banThreshold, maxRequestsPerWindow]) (by simp [window, Windows.start, second])
  have hover : joins ([0] ++ List.replicate 119 (59 * second)) (60 * second) = false := by
    rw [joins_of_free (by simp [banThreshold, maxRequestsPerWindow])]
    simp [Windows.start, window]
  have hsecond : windowsFrom joins [60 * second] (List.replicate 119 (60 * second) ++ []) =
      windowsFrom joins ([60 * second] ++ List.replicate 119 (60 * second)) [] :=
    windowsFrom_close (List.cons_ne_nil _ _) (by simp [banThreshold, maxRequestsPerWindow]) (by simp [window, Windows.start, second])
  rw [List.append_nil] at hsecond
  rw [burstTimes, List.cons_append, windows, hfirst, windowsFrom, hover, if_neg Bool.false_ne_true, hsecond]
  rfl

end Sample

end HassanNode
