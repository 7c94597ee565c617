import Mathlib

/-!
# HassanNode.Lib.Dialogue

Two parties that write to each other and read what arrives, in general. A party is the
tree of what it may do next (`Dialogue`); a link holds two of them and the symbols under
way in each direction, and either party may move whenever it can (`Link.Step`).

A party's move never disables the other's and never changes what the other reads
(`Link.step_diamond`), and every move makes a party smaller (`Link.step_wellFounded`). So
one run that ends says how all of them end (`Link.converges`), in whatever order the
parties are scheduled. What a party has read and written is kept apart from the moves
(`Dialogue.After`): the channels lose, repeat and reorder nothing (`Link.account`).
-/

namespace HassanNode

open Relation (ReflTransGen ReflGen)

/-- A party over symbols of type `σ`: it has a result, it has failed, it writes, or it
reads some symbols and goes on with what it read, or with an error if the other end is
closed before they have all arrived. -/
inductive Dialogue (σ ε α : Type) where
  | done (result : α)
  | fail (error : ε)
  | write (symbols : List σ) (next : Dialogue σ ε α)
  | read (count : Nat) (eof : ε) (next : List σ → Dialogue σ ε α)

namespace Dialogue

variable {σ ε α β : Type}

/-- One party after the other. -/
def bind : Dialogue σ ε α → (α → Dialogue σ ε β) → Dialogue σ ε β
  | .done a, f => f a
  | .fail e, _ => .fail e
  | .write symbols next, f => .write symbols (next.bind f)
  | .read count eof next, f => .read count eof fun symbols => (next symbols).bind f

instance : Monad (Dialogue σ ε) where
  pure := .done
  bind := bind

theorem bind_assoc {γ : Type} (d : Dialogue σ ε α) (f : α → Dialogue σ ε β) (g : β → Dialogue σ ε γ) :
    ((d >>= f) >>= g) = (d >>= fun a => f a >>= g) := by
  show (d.bind f).bind g = d.bind fun a => (f a).bind g
  induction d with
  | done a => rfl
  | fail e => rfl
  | write symbols next ih => simp only [bind, ih]
  | read count eof next ih => simp only [bind, ih]

/-- Write some symbols. -/
def send (symbols : List σ) : Dialogue σ ε Unit := .write symbols (.done ())

/-- Read so many symbols. -/
def receive (count : Nat) (eof : ε) : Dialogue σ ε (List σ) := .read count eof .done

/-- Fail unless the test passes. -/
def check (test : Bool) (error : ε) : Dialogue σ ε Unit := if test then .done () else .fail error

theorem check_bind {test : Bool} (error : ε) (f : Unit → Dialogue σ ε β) :
    (check test error >>= f) = if test then f () else fail error := by
  cases test <;> rfl

/-- A party that has failed has closed its end. -/
def closed : Dialogue σ ε α → Bool
  | .fail _ => true
  | _ => false

/-- The move of a party with what has arrived for it, told whether the other end is
closed: the party after it, what is still to be read, and what it sends. -/
def act (closed : Bool) : Dialogue σ ε α → List σ → Option (Dialogue σ ε α × List σ × List σ)
  | .done _, _ => none
  | .fail _, _ => none
  | .write symbols next, inbox => some (next, inbox, symbols)
  | .read count eof next, inbox =>
    if count ≤ inbox.length then some (next (inbox.take count), inbox.drop count, [])
    else if closed then some (.fail eof, inbox, [])
    else none

/-- What a move leaves of a party. -/
inductive Next : Dialogue σ ε α → Dialogue σ ε α → Prop
  | write {symbols : List σ} {next : Dialogue σ ε α} : Next next (.write symbols next)
  | read {count : Nat} {eof : ε} {next : List σ → Dialogue σ ε α} (symbols : List σ) :
      Next (next symbols) (.read count eof next)
  | eof {count : Nat} {eof : ε} {next : List σ → Dialogue σ ε α} : Next (.fail eof) (.read count eof next)

theorem next_wellFounded : WellFounded (Next (σ := σ) (ε := ε) (α := α)) := by
  refine ⟨fun d => ?_⟩
  induction d with
  | done a =>
      refine ⟨_, fun d' h => ?_⟩
      cases h
  | fail e =>
      refine ⟨_, fun d' h => ?_⟩
      cases h
  | write symbols next ih =>
      refine ⟨_, fun d' h => ?_⟩
      cases h
      exact ih
  | read count eof next ih =>
      refine ⟨_, fun d' h => ?_⟩
      cases h with
      | read symbols => exact ih symbols
      | eof =>
          refine ⟨_, fun d'' h => ?_⟩
          cases h

section Act

variable {closed : Bool} {d d' : Dialogue σ ε α} {inbox inbox' sent : List σ}

theorem next_of_act (h : d.act closed inbox = some (d', inbox', sent)) : Next d' d := by
  cases d with
  | done a => cases h
  | fail e => cases h
  | write symbols next =>
      cases h
      exact .write
  | read count eof next =>
      rw [act] at h
      split at h
      · cases h
        exact .read _
      · split at h
        · cases h
          exact .eof
        · cases h

/-- A read of what is in front. -/
theorem act_read {count : Nat} {eof : ε} {next : List σ → Dialogue σ ε α} {symbols rest : List σ}
    (hlen : symbols.length = count) :
    act closed (.read count eof next) (symbols ++ rest) = some (next symbols, rest, []) := by
  have hle : count ≤ (symbols ++ rest).length := by
    rw [List.length_append]
    omega
  rw [act, if_pos hle, List.take_left' hlen, List.drop_left' hlen]

/-- A read that the other end, being closed, leaves without its symbols. -/
theorem act_eof {count : Nat} {eof : ε} {next : List σ → Dialogue σ ε α} (hshort : inbox.length < count) :
    act true (.read count eof next) inbox = some (.fail eof, inbox, []) := by
  rw [act, if_neg (by omega), if_pos rfl]

/-- More symbols behind do not change a move, if the other end is open. -/
theorem act_append (h : d.act false inbox = some (d', inbox', sent)) (closed : Bool) (more : List σ) :
    d.act closed (inbox ++ more) = some (d', inbox' ++ more, sent) := by
  cases d with
  | done a => cases h
  | fail e => cases h
  | write symbols next =>
      cases h
      rfl
  | read count eof next =>
      rw [act] at h
      split at h
      · rename_i hle
        cases h
        have hle' : count ≤ (inbox ++ more).length := by
          rw [List.length_append]
          omega
        rw [act, if_pos hle', List.take_append_of_le_length hle, List.drop_append_of_le_length hle]
      · cases h

theorem not_closed_of_act (h : d.act closed inbox = some (d', inbox', sent)) : d.closed = false := by
  cases d with
  | fail e => cases h
  | _ => rfl

end Act

end Dialogue

/-! ### Two parties -/

/-- Two parties and what is under way between them. -/
structure Link (σ ε α ε' β : Type) where
  client : Dialogue σ ε α
  server : Dialogue σ ε' β
  /-- Written by the client and not yet read. -/
  toServer : List σ
  /-- Written by the server and not yet read. -/
  toClient : List σ

namespace Link

variable {σ ε α ε' β : Type}

/-- Before anything is written. -/
def start (client : Dialogue σ ε α) (server : Dialogue σ ε' β) : Link σ ε α ε' β := ⟨client, server, [], []⟩

/-- Either party moves. -/
inductive Step : Link σ ε α ε' β → Link σ ε α ε' β → Prop
  | client {c c' : Dialogue σ ε α} {s : Dialogue σ ε' β} {up down down' sent : List σ}
      (h : c.act s.closed down = some (c', down', sent)) :
      Step ⟨c, s, up, down⟩ ⟨c', s, up ++ sent, down'⟩
  | server {c : Dialogue σ ε α} {s s' : Dialogue σ ε' β} {up up' down sent : List σ}
      (h : s.act c.closed up = some (s', up', sent)) :
      Step ⟨c, s, up, down⟩ ⟨c, s', up', down ++ sent⟩

/-- Any number of moves. -/
abbrev Steps : Link σ ε α ε' β → Link σ ε α ε' β → Prop := ReflTransGen Step

/-- Neither party can move. -/
def Ended (l : Link σ ε α ε' β) : Prop := ∀ l', ¬ Step l l'

/-- Every run is finite: a move makes one of the two parties smaller. -/
theorem step_wellFounded : WellFounded fun l' l : Link σ ε α ε' β => Step l l' := by
  have hparts : WellFounded (Prod.GameAdd (Dialogue.Next (σ := σ) (ε := ε) (α := α))
      (Dialogue.Next (σ := σ) (ε := ε') (α := β))) :=
    Dialogue.next_wellFounded.prod_gameAdd Dialogue.next_wellFounded
  refine Subrelation.wf (fun {l' l} h => ?_) (InvImage.wf (fun l => (l.client, l.server)) hparts)
  cases h with
  | client h => exact .fst (Dialogue.next_of_act h)
  | server h => exact .snd (Dialogue.next_of_act h)

/-- Two moves from one state commute. -/
theorem step_diamond {l l₁ l₂ : Link σ ε α ε' β} (h₁ : Step l l₁) (h₂ : Step l l₂) :
    ∃ l', ReflGen Step l₁ l' ∧ Steps l₂ l' := by
  -- a party that moves is open, so what the other one reads is already there
  have hcommute : ∀ {c c' : Dialogue σ ε α} {s s' : Dialogue σ ε' β} {up up' down down' sent sent' : List σ},
      c.act s.closed down = some (c', down', sent) → s.act c.closed up = some (s', up', sent') →
      Step ⟨c', s, up ++ sent, down'⟩ ⟨c', s', up' ++ sent, down' ++ sent'⟩ ∧
        Step ⟨c, s', up', down ++ sent'⟩ ⟨c', s', up' ++ sent, down' ++ sent'⟩ := by
    intro c c' s s' up up' down down' sent sent' hc hs
    have hc' := hc
    have hs' := hs
    rw [Dialogue.not_closed_of_act hs] at hc'
    rw [Dialogue.not_closed_of_act hc] at hs'
    exact ⟨.server (Dialogue.act_append hs' _ _), .client (Dialogue.act_append hc' _ _)⟩
  cases h₁ with
  | client hc =>
      cases h₂ with
      | client hc' =>
          rw [hc] at hc'
          cases hc'
          exact ⟨_, .refl, .refl⟩
      | server hs =>
          obtain ⟨hleft, hright⟩ := hcommute hc hs
          exact ⟨_, .single hleft, .single hright⟩
  | server hs =>
      cases h₂ with
      | client hc =>
          obtain ⟨hleft, hright⟩ := hcommute hc hs
          exact ⟨_, .single hright, .single hleft⟩
      | server hs' =>
          rw [hs] at hs'
          cases hs'
          exact ⟨_, .refl, .refl⟩

/-- If one run ends somewhere, every run gets there. -/
theorem converges {l e l' : Link σ ε α ε' β} (hend : Steps l e) (he : e.Ended) (hrun : Steps l l') :
    Steps l' e := by
  obtain ⟨d, hd, hd'⟩ := Relation.church_rosser (fun _ _ _ => step_diamond) hend hrun
  -- the end makes no move, so it is the state in which the two runs meet
  rcases hd.cases_head with heq | ⟨x, hx, -⟩
  · exact heq ▸ hd'
  · exact (he x hx).elim

/-- Parties that have a result or have failed do not move. -/
theorem ended {l : Link σ ε α ε' β} (hc : ∀ closed inbox, l.client.act closed inbox = none)
    (hs : ∀ closed inbox, l.server.act closed inbox = none) : l.Ended := by
  intro l' h
  cases h with
  | client h =>
      rw [hc] at h
      cases h
  | server h =>
      rw [hs] at h
      cases h

/-! ### Runs, move by move -/

section Moves

variable {c : Dialogue σ ε α} {s : Dialogue σ ε' β} {up up' down down' symbols : List σ} {l : Link σ ε α ε' β}

theorem client_write (h : Steps ⟨c, s, up ++ symbols, down⟩ l) : Steps ⟨.write symbols c, s, up, down⟩ l :=
  .head (.client rfl) h

theorem server_write (h : Steps ⟨c, s, up, down ++ symbols⟩ l) : Steps ⟨c, .write symbols s, up, down⟩ l :=
  .head (.server rfl) h

theorem client_read {count : Nat} {eof : ε} {next : List σ → Dialogue σ ε α} (hsplit : down' = symbols ++ down)
    (hlen : symbols.length = count) (h : Steps ⟨next symbols, s, up, down⟩ l) :
    Steps ⟨.read count eof next, s, up, down'⟩ l := by
  subst hsplit
  refine .head (.client (Dialogue.act_read hlen)) ?_
  rwa [List.append_nil]

theorem server_read {count : Nat} {eof : ε'} {next : List σ → Dialogue σ ε' β} (hsplit : up' = symbols ++ up)
    (hlen : symbols.length = count) (h : Steps ⟨c, next symbols, up, down⟩ l) :
    Steps ⟨c, .read count eof next, up', down⟩ l := by
  subst hsplit
  refine .head (.server (Dialogue.act_read hlen)) ?_
  rwa [List.append_nil]

theorem server_eof {count : Nat} {eof : ε'} {next : List σ → Dialogue σ ε' β} {e : ε} (hshort : up.length < count)
    (h : Steps ⟨.fail e, .fail eof, up, down⟩ l) : Steps ⟨.fail e, .read count eof next, up, down⟩ l := by
  refine .head (.server (Dialogue.act_eof hshort)) ?_
  rwa [List.append_nil]

end Moves

end Link

/-! ### What was read and written -/

namespace Dialogue

variable {σ ε α : Type}

/-- From the first party to the second, having read and written so much. -/
inductive After : Dialogue σ ε α → (read written : List σ) → Dialogue σ ε α → Prop
  | refl {d : Dialogue σ ε α} : After d [] [] d
  | write {symbols read written : List σ} {next d : Dialogue σ ε α} (h : After next read written d) :
      After (.write symbols next) read (symbols ++ written) d
  | read {count : Nat} {eof : ε} {next : List σ → Dialogue σ ε α} {symbols read written : List σ}
      {d : Dialogue σ ε α} (hlen : symbols.length = count) (h : After (next symbols) read written d) :
      After (.read count eof next) (symbols ++ read) written d
  | giveUp {count : Nat} {eof : ε} {next : List σ → Dialogue σ ε α} : After (.read count eof next) [] [] (.fail eof)

theorem After.trans {d d' d'' : Dialogue σ ε α} {r w r' w' : List σ} (h : After d r w d') (h' : After d' r' w' d'') :
    After d (r ++ r') (w ++ w') d'' := by
  induction h with
  | refl => exact h'
  | write _ ih => rw [List.append_assoc]; exact .write (ih h')
  | read hlen _ ih => rw [List.append_assoc]; exact .read hlen (ih h')
  | giveUp =>
      -- having failed, the party does nothing more
      cases h'
      exact .giveUp

/-! What a party that has come to its result has done. -/

section Inversion

variable {read written : List σ} {a b : α}

theorem After.done_inv (h : After (.done a : Dialogue σ ε α) read written (.done b)) :
    read = [] ∧ written = [] ∧ a = b := by
  cases h
  exact ⟨rfl, rfl, rfl⟩

theorem After.fail_inv {e : ε} (h : After (.fail e : Dialogue σ ε α) read written (.done b)) : False := by
  cases h

theorem After.write_inv {symbols : List σ} {next : Dialogue σ ε α}
    (h : After (.write symbols next) read written (.done b)) :
    ∃ rest, written = symbols ++ rest ∧ After next read rest (.done b) := by
  cases h with
  | write h => exact ⟨_, rfl, h⟩

theorem After.read_inv {count : Nat} {eof : ε} {next : List σ → Dialogue σ ε α}
    (h : After (.read count eof next) read written (.done b)) :
    ∃ symbols rest, symbols.length = count ∧ read = symbols ++ rest ∧
      After (next symbols) rest written (.done b) := by
  cases h with
  | read hlen h => exact ⟨_, _, hlen, rfl, h⟩

theorem After.check_inv {test : Bool} {e : ε} {f : Unit → Dialogue σ ε α}
    (h : After (check test e >>= f) read written (.done b)) : test = true ∧ After (f ()) read written (.done b) := by
  rw [check_bind] at h
  split at h
  · rename_i htest
    exact ⟨htest, h⟩
  · exact h.fail_inv.elim

end Inversion

theorem After.of_act {closed : Bool} {d d' : Dialogue σ ε α} {inbox inbox' sent : List σ}
    (h : d.act closed inbox = some (d', inbox', sent)) :
    ∃ r, After d r sent d' ∧ inbox = r ++ inbox' := by
  cases d with
  | done a => cases h
  | fail e => cases h
  | write symbols next =>
      cases h
      have hwrite : After (.write sent d') [] (sent ++ []) d' := .write .refl
      rw [List.append_nil] at hwrite
      exact ⟨[], hwrite, rfl⟩
  | read count eof next =>
      rw [act] at h
      split at h
      · rename_i hle
        cases h
        have hread : After (.read count eof next) (inbox.take count ++ []) [] (next (inbox.take count)) :=
          .read (List.length_take_of_le hle) .refl
        rw [List.append_nil] at hread
        exact ⟨inbox.take count, hread, (List.take_append_drop count inbox).symm⟩
      · split at h
        · cases h
          exact ⟨[], .giveUp, rfl⟩
        · cases h

end Dialogue

namespace Link

variable {σ ε α ε' β : Type}

/-- A move, or a timer that fires on a party that is waiting. -/
inductive TimedStep : Link σ ε α ε' β → Link σ ε α ε' β → Prop
  | step {l l' : Link σ ε α ε' β} (h : Step l l') : TimedStep l l'
  | clientTimeout {count : Nat} {eof : ε} {next : List σ → Dialogue σ ε α} {s : Dialogue σ ε' β}
      {up down : List σ} : TimedStep ⟨.read count eof next, s, up, down⟩ ⟨.fail eof, s, up, down⟩
  | serverTimeout {count : Nat} {eof : ε'} {next : List σ → Dialogue σ ε' β} {c : Dialogue σ ε α}
      {up down : List σ} : TimedStep ⟨c, .read count eof next, up, down⟩ ⟨c, .fail eof, up, down⟩

/-- Any number of moves, timers included. -/
abbrev TimedSteps : Link σ ε α ε' β → Link σ ε α ε' β → Prop := ReflTransGen TimedStep

theorem Steps.timed {l l' : Link σ ε α ε' β} (h : Steps l l') : TimedSteps l l' :=
  ReflTransGen.mono (fun _ _ => .step) _ _ h

/-- What the two parties have read and written accounts for everything: the channels
lose, repeat and reorder nothing. -/
def Account (client : Dialogue σ ε α) (server : Dialogue σ ε' β) (l : Link σ ε α ε' β) : Prop :=
  ∃ read written read' written', Dialogue.After client read written l.client ∧
    Dialogue.After server read' written' l.server ∧ written = read' ++ l.toServer ∧ written' = read ++ l.toClient

theorem Account.step {client : Dialogue σ ε α} {server : Dialogue σ ε' β} {l l' : Link σ ε α ε' β}
    (a : Account client server l) (h : TimedStep l l') : Account client server l' := by
  obtain ⟨r, w, r', w', hclient, hserver, hup, hdown⟩ := a
  cases h with
  | step h =>
      cases h with
      | client h =>
          obtain ⟨x, hx, hin⟩ := Dialogue.After.of_act h
          exact ⟨_, _, _, _, hclient.trans hx, hserver, by rw [hup]; simp, by rw [hdown]; simp [hin]⟩
      | server h =>
          obtain ⟨x, hx, hin⟩ := Dialogue.After.of_act h
          exact ⟨_, _, _, _, hclient, hserver.trans hx, by rw [hup]; simp [hin], by rw [hdown]; simp⟩
  | clientTimeout =>
      exact ⟨_, _, _, _, hclient.trans .giveUp, hserver, by simpa using hup, by simpa using hdown⟩
  | serverTimeout =>
      exact ⟨_, _, _, _, hclient, hserver.trans .giveUp, by simpa using hup, by simpa using hdown⟩

theorem account {client : Dialogue σ ε α} {server : Dialogue σ ε' β} {l : Link σ ε α ε' β}
    (hrun : TimedSteps (start client server) l) : Account client server l := by
  induction hrun with
  | refl => exact ⟨[], [], [], [], .refl, .refl, rfl, rfl⟩
  | tail _ h ih => exact ih.step h

end Link

end HassanNode
