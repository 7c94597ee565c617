import Mathlib

/-!
# HassanNode.Lib.RollingFile

A file that is replaced as a whole, with two older generations kept beside it. A save
writes the new contents to a temporary file, rolls the generations by renaming, and
renames the temporary file into place. Renames are atomic and are not reordered; the
temporary file may hold anything after a crash.

`generations_run`: whatever saves were completed or cut short, the two newest contents
that were renamed into place are still there, in order. A reader that tries the files in
this order finds the newest one, and the one before it when the newest is damaged.
-/

namespace HassanNode

namespace RollingFile

variable {κ σ ε : Type}

/-- The files under the four names. -/
structure Files (κ : Type) where
  primary : Option κ := none
  temp : Option κ := none
  bak : Option κ := none
  bak1 : Option κ := none

namespace Files

/-- The contents a reader tries, newest first. -/
def generations (fs : Files κ) : List κ := fs.primary.toList ++ fs.bak.toList ++ fs.bak1.toList

def write (fs : Files κ) (c : κ) : Files κ := { fs with temp := some c }

/-- The older backup is given up, if there is a newer one. -/
def rollBackup (fs : Files κ) : Files κ :=
  match fs.primary, fs.bak with
  | some _, some c => { fs with bak := none, bak1 := some c }
  | _, _ => fs

def rollPrimary (fs : Files κ) : Files κ :=
  match fs.primary with
  | some c => { fs with primary := none, bak := some c }
  | none => fs

def commit (fs : Files κ) : Files κ :=
  match fs.temp with
  | some c => { fs with primary := some c, temp := none }
  | none => fs

/-- A save, to its end. -/
def save (fs : Files κ) (c : κ) : Files κ := (fs.write c).rollBackup.rollPrimary.commit

end Files

/-- Where a save was cut short: in the middle of the temporary file, which then holds
anything, or after one of the steps. -/
inductive Cut (κ : Type)
  | writing (torn : κ)
  | written
  | rolledBackup
  | rolledPrimary

inductive Event (κ : Type)
  | saved (c : κ)
  | cutShort (c : κ) (cut : Cut κ)

namespace Files

def step (fs : Files κ) : Event κ → Files κ
  | .saved c => fs.save c
  | .cutShort _ (.writing torn) => fs.write torn
  | .cutShort c .written => fs.write c
  | .cutShort c .rolledBackup => (fs.write c).rollBackup
  | .cutShort c .rolledPrimary => (fs.write c).rollBackup.rollPrimary

def run (fs : Files κ) (es : List (Event κ)) : Files κ := es.foldl step fs

end Files

/-- The contents that were renamed into place, newest first. -/
def committed : List (Event κ) → List κ
  | [] => []
  | .saved c :: es => committed es ++ [c]
  | .cutShort _ _ :: es => committed es

theorem committed_concat (es : List (Event κ)) (e : Event κ) :
    committed (es ++ [e]) = committed [e] ++ committed es := by
  induction es with
  | nil => simp [committed]
  | cons x es ih =>
      cases x with
      | saved c => rw [List.cons_append, committed, committed, ih, List.append_assoc]
      | cutShort c cut => rw [List.cons_append, committed, committed, ih]

namespace Files

/-! ### The two newest generations -/

@[simp] theorem generations_write (fs : Files κ) (c : κ) : (fs.write c).generations = fs.generations := rfl

theorem rollBackup_newest (fs : Files κ) : fs.rollBackup.generations.take 2 = fs.generations.take 2 := by
  obtain ⟨primary, temp, bak, bak1⟩ := fs
  cases primary <;> cases bak <;> rfl

theorem rollPrimary_newest (fs : Files κ) : fs.rollBackup.rollPrimary.generations.take 2 = fs.generations.take 2 := by
  obtain ⟨primary, temp, bak, bak1⟩ := fs
  cases primary <;> cases bak <;> cases bak1 <;> rfl

/-- The renamed file comes before what was there. -/
theorem save_newest (fs : Files κ) (c : κ) : (fs.save c).generations.take 2 = (c :: fs.generations).take 2 := by
  obtain ⟨primary, temp, bak, bak1⟩ := fs
  cases primary <;> cases bak <;> cases bak1 <;> rfl

/-- **Step.** -/
theorem step_newest (fs : Files κ) (e : Event κ) :
    (fs.step e).generations.take 2 = (committed [e] ++ fs.generations).take 2 := by
  cases e with
  | saved c => exact fs.save_newest c
  | cutShort c cut =>
      cases cut with
      | writing torn => rfl
      | written => rfl
      | rolledBackup => exact rollBackup_newest (fs.write c)
      | rolledPrimary => exact rollPrimary_newest (fs.write c)

/-- What is in front hides what comes later. -/
theorem take_append_congr {xs ys : List κ} {n : Nat} (h : xs.take n = ys.take n) (zs : List κ) :
    (zs ++ xs).take n = (zs ++ ys).take n := by
  have hle : min (n - zs.length) n = n - zs.length := min_eq_left (Nat.sub_le _ _)
  have hrest : xs.take (n - zs.length) = ys.take (n - zs.length) := by
    have htake := congrArg (List.take (n - zs.length)) h
    rwa [List.take_take, List.take_take, hle] at htake
  rw [List.take_append, List.take_append, hrest]

theorem run_concat (fs : Files κ) (es : List (Event κ)) (e : Event κ) : fs.run (es ++ [e]) = (fs.run es).step e := by
  rw [run, run, List.foldl_append, List.foldl_cons, List.foldl_nil]

/-- **Run.** -/
theorem generations_run (fs : Files κ) (es : List (Event κ)) :
    (fs.run es).generations.take 2 = (committed es ++ fs.generations).take 2 := by
  induction es using List.reverseRecOn with
  | nil => rfl
  | append_singleton es e ih =>
      rw [run_concat, step_newest, committed_concat, List.append_assoc]
      exact take_append_congr ih _

/-- What one event does to the primary name. -/
def stillMissing (missing : Bool) : Event κ → Bool
  | .saved _ => false
  | .cutShort _ .rolledPrimary => true
  | .cutShort _ _ => missing

/-- No file stands under the primary name: nothing has been saved, or a save was cut short
between its two last renames and none was completed since. -/
def primaryMissing (es : List (Event κ)) : Bool := es.foldl stillMissing true

theorem primary_run (es : List (Event κ)) : (({} : Files κ).run es).primary.isNone = primaryMissing es := by
  induction es using List.reverseRecOn with
  | nil => rfl
  | append_singleton es e ih =>
      rw [run_concat, primaryMissing, List.foldl_append, List.foldl_cons, List.foldl_nil]
      change _ = stillMissing (primaryMissing es) e
      rw [← ih]
      obtain ⟨primary, temp, bak, bak1⟩ := ({} : Files κ).run es
      cases e with
      | saved c => cases primary <;> cases bak <;> rfl
      | cutShort c cut => cases cut <;> cases primary <;> cases bak <;> rfl

/-! ### Reading -/

def attempt (read : κ → Except ε σ) (missing : ε) : Option κ → Except ε σ
  | some c => read c
  | none => .error missing

/-- The primary file; where it is missing or does not read, the backups, unless the
error says that these would not read either. -/
def load (read : κ → Except ε σ) (missing : ε) (fatal : ε → Bool) (fs : Files κ) : Except ε σ :=
  match attempt read missing fs.primary with
  | .ok s => .ok s
  | .error e =>
    if fatal e then .error e
    else
      match attempt read missing fs.bak with
      | .ok s => .ok s
      | .error _ =>
        match attempt read missing fs.bak1 with
        | .ok s => .ok s
        | .error _ => .error e

variable {read : κ → Except ε σ} {missing : ε} {fatal : ε → Bool} {fs : Files κ} {c d : κ} {s : σ} {e : ε}

theorem load_backup (hfatal : fatal e = false) (hprimary : attempt read missing fs.primary = .error e)
    (h : (fs.bak.toList ++ fs.bak1.toList).take 1 = [c]) (hread : read c = .ok s) :
    fs.load read missing fatal = .ok s := by
  rw [load, hprimary]
  dsimp only
  rw [hfatal, if_neg Bool.false_ne_true]
  cases hbak : fs.bak with
  | some b =>
      obtain rfl : b = c := by simpa [hbak] using h
      rw [attempt, hread]
  | none =>
      cases hbak1 : fs.bak1 with
      | some b =>
          obtain rfl : b = c := by simpa [hbak, hbak1] using h
          simp [attempt, hread]
      | none => simp [hbak, hbak1] at h

/-- The newest generation is read, whatever its name. -/
theorem load_newest (hmissing : fatal missing = false) (h : fs.generations.take 1 = [c]) (hread : read c = .ok s) :
    fs.load read missing fatal = .ok s := by
  cases hprimary : fs.primary with
  | some p =>
      obtain rfl : p = c := by simpa [generations, hprimary] using h
      rw [load, hprimary, attempt, hread]
  | none =>
      refine load_backup hmissing (by rw [hprimary, attempt]) ?_ hread
      simpa only [generations, hprimary, Option.toList_none, List.nil_append] using h

/-- Whatever stands in the primary file, if it does not read then the generation before
it does. -/
theorem load_damaged (hprimary : fs.primary.isSome) (h : ∃ newest, fs.generations.take 2 = [newest, c])
    (hread : read c = .ok s) (hdamaged : read d = .error e) (hfatal : fatal e = false) :
    ({ fs with primary := some d } : Files κ).load read missing fatal = .ok s := by
  obtain ⟨newest, hnewest⟩ := h
  obtain ⟨p, hp⟩ := Option.isSome_iff_exists.mp hprimary
  refine load_backup hfatal (by rw [attempt, hdamaged]) ?_ hread
  simp only [generations, hp, Option.toList_some, List.cons_append, List.nil_append, List.take_succ_cons,
    List.cons.injEq] at hnewest
  exact hnewest.2

end Files

end RollingFile

end HassanNode
