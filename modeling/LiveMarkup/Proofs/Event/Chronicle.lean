/-
Who is called, whatever handlers do to the channel while it is busy.

A handler may subscribe, end subscriptions and pass on further events, and so may the handlers that these reach, to any
depth. A channel is therefore watched: a `Chronicle` notes every operation on it in the order in which it begins, and each
event that is passed on has a number of its own, under which the calls of handlers are noted. `Watched.Passes` relates two
states if one is reached from the other by operations alone, those of the handlers called on the way among them.

- `Watched.Kept`: what the channel has to do with its chronicle, kept by each operation (`Watched.Passes.kept`);
- `Chronicle.Tells`: what an operation adds to the chronicle (`Watched.Passes.tells`);
- `Directory.standsFor_of`: a table with one list for each topic, which is removed when its last entry goes, has the same
  subscribers;
- `Watched.fires_standing`: each event calls those whose subscription stands when it begins.
-/
import Mathlib.Data.List.Induction
import LiveMarkup.Entries
import LiveMarkup.Event.Basic
import LiveMarkup.Event.Channel

namespace LiveMarkup

variable {A S : Type}

/-! ## Chronicles -/

/-- what is noted of a channel; events that are passed on are numbered in the order in which they begin -/
inductive Note (A : Type) where
  | subscribed (ticket : Nat) (topic : String) (handler : A)
  | unsubscribed (ticket : Nat) (topic : String)
  | counted (topic : String) (count : Nat)
  | fired (number : Nat) (topic : String)
  | called (number : Nat) (handler : A)
  | finished (number count : Nat)
deriving DecidableEq

/-- notes in the order in which they were made -/
abbrev Chronicle (A : Type) := List (Note A)

namespace Note

/-- the note that a subscription has been ended -/
def ends (ticket : Nat) : Note A → Bool
  | unsubscribed t _ => t == ticket
  | _ => false

def ticket? : Note A → Option Nat
  | subscribed ticket _ _ => some ticket
  | _ => none

def number? : Note A → Option Nat
  | fired number _ | called number _ | finished number _ => some number
  | _ => none

def begins : Note A → Bool
  | fired _ _ => true
  | _ => false

/-- the handler that is called for the event with this number -/
def callFor? (number : Nat) : Note A → Option A
  | called n handler => if n = number then some handler else none
  | _ => none

def countFor? (number : Nat) : Note A → Option Nat
  | finished n count => if n = number then some count else none
  | _ => none

end Note

namespace Chronicle

/-- the subscriptions that have been made and not been ended since, in the order in which they were made -/
def standing : Chronicle A → List (Subscription A)
  | [] => []
  | .subscribed ticket topic handler :: rest =>
    if rest.any (Note.ends ticket) then standing rest else ⟨ticket, topic, handler⟩ :: standing rest
  | _ :: rest => standing rest

/-- the handlers whose subscription to a topic stands -/
def live (h : Chronicle A) (topic : String) : List A := (h.standing.filter (·.topic == topic)).map (·.handler)

def tickets (h : Chronicle A) : List Nat := h.filterMap Note.ticket?

/-- how many events have begun to be passed on -/
def fires (h : Chronicle A) : Nat := h.countP Note.begins

/-- the handlers that have been called for the event with this number -/
def calls (h : Chronicle A) (number : Nat) : List A := h.filterMap (Note.callFor? number)

def counts (h : Chronicle A) (number : Nat) : List Nat := h.filterMap (Note.countFor? number)

@[simp] theorem tickets_append (g h : Chronicle A) : tickets (g ++ h) = g.tickets ++ h.tickets := List.filterMap_append

@[simp] theorem fires_append (g h : Chronicle A) : fires (g ++ h) = g.fires + h.fires := List.countP_append

@[simp] theorem calls_append (g h : Chronicle A) (number : Nat) :
    calls (g ++ h) number = g.calls number ++ h.calls number := List.filterMap_append

@[simp] theorem counts_append (g h : Chronicle A) (number : Nat) :
    counts (g ++ h) number = g.counts number ++ h.counts number := List.filterMap_append

/-- later notes end subscriptions and add their own -/
theorem standing_append (g h : Chronicle A) :
    standing (g ++ h) = g.standing.filter (fun x => !h.any (Note.ends x.ticket)) ++ h.standing := by
  induction g with
  | nil => rfl
  | cons note g ih =>
    cases note with
    | subscribed ticket topic handler =>
      simp only [List.cons_append, standing, List.any_append, ih]
      by_cases hg : g.any (Note.ends ticket) = true
      · simp [hg]
      · by_cases hh : h.any (Note.ends ticket) = true <;> simp [hg, hh]
    | _ => simpa only [List.cons_append, standing] using ih

@[simp] theorem standing_subscribed (h : Chronicle A) (ticket : Nat) (topic : String) (handler : A) :
    standing (h ++ [.subscribed ticket topic handler]) = h.standing ++ [⟨ticket, topic, handler⟩] := by
  simp [standing_append, standing, Note.ends]

@[simp] theorem standing_unsubscribed (h : Chronicle A) (ticket : Nat) (topic : String) :
    standing (h ++ [.unsubscribed ticket topic]) = h.standing.filter (·.ticket != ticket) := by
  simp [standing_append, standing, Note.ends, bne, BEq.comm]

/-- a note that neither makes nor ends a subscription -/
theorem standing_other (h : Chronicle A) {note : Note A} (hs : note.ticket? = none)
    (he : ∀ ticket, note.ends ticket = false) : standing (h ++ [note]) = h.standing := by
  cases note with
  | subscribed => cases hs
  | unsubscribed ticket => simpa [Note.ends] using he ticket
  | _ => simp [standing_append, standing, Note.ends]

/-- what stands has been made -/
theorem mem_of_standing {h : Chronicle A} {x : Subscription A} (hx : x ∈ h.standing) :
    .subscribed x.ticket x.topic x.handler ∈ h := by
  induction h with
  | nil => cases hx
  | cons note h ih =>
    cases note with
    | subscribed ticket topic handler =>
      simp only [standing] at hx
      split at hx
      · exact List.mem_cons_of_mem _ (ih hx)
      · rcases List.mem_cons.1 hx with rfl | hx
        · exact List.mem_cons_self
        · exact List.mem_cons_of_mem _ (ih hx)
    | _ => exact List.mem_cons_of_mem _ (ih hx)

theorem tickets_standing_sublist (h : Chronicle A) : (h.standing.map (·.ticket)).Sublist h.tickets := by
  induction h with
  | nil => exact .slnil
  | cons note h ih =>
    cases note with
    | subscribed ticket topic handler =>
      simp only [standing]
      split
      · exact ih.cons _
      · exact ih.cons_cons _
    | _ => exact ih

theorem calls_eq_nil {h : Chronicle A} {number : Nat} (hn : ∀ note ∈ h, note.number? ≠ some number) :
    h.calls number = [] := by
  refine List.filterMap_eq_nil_iff.2 fun note hm => ?_
  cases note with
  | called n handler => exact if_neg fun he => hn _ hm (congrArg some he)
  | _ => rfl

theorem counts_eq_nil {h : Chronicle A} {number : Nat} (hn : ∀ note ∈ h, note.number? ≠ some number) :
    h.counts number = [] := by
  refine List.filterMap_eq_nil_iff.2 fun note hm => ?_
  cases note with
  | finished n count => exact if_neg fun he => hn _ hm (congrArg some he)
  | _ => rfl

/-- a note in the middle of what was noted in two parts -/
theorem mid_append {x y before after : Chronicle A} {note : Note A} (h : x ++ y = before ++ note :: after) :
    (∃ rest, x = before ++ note :: rest ∧ after = rest ++ y) ∨ ∃ mid, before = x ++ mid ∧ y = mid ++ note :: after := by
  rcases List.append_eq_append_iff.1 h with ⟨mid, rfl, rfl⟩ | ⟨rest, rfl, hr⟩
  · exact .inr ⟨mid, rfl, rfl⟩
  · cases rest with
    | nil => exact .inr ⟨[], by simp, hr.symm⟩
    | cons n rest =>
      obtain ⟨rfl, rfl⟩ := List.cons.inj hr
      exact .inl ⟨rest, rfl, rfl⟩

theorem eq_of_single {before after : Chronicle A} {m n : Note A} (h : [m] = before ++ n :: after) :
    before = [] ∧ m = n := by
  cases before <;> simp_all

end Chronicle

/-! ## Chronicles that can be -/

namespace Chronicle

/-- tickets are given out by counting, and what is ended has been made before -/
structure Orderly (h : Chronicle A) : Prop where
  made : ∀ (before : Chronicle A) ticket topic handler after, h = before ++ .subscribed ticket topic handler :: after →
    ticket = before.tickets.length
  given : ∀ (before : Chronicle A) ticket topic after, h = before ++ .unsubscribed ticket topic :: after →
    ∃ handler, .subscribed ticket topic handler ∈ before

theorem Orderly.nil : Orderly ([] : Chronicle A) := by
  constructor
  · intro before ticket topic handler after h
    simp at h
  · intro before ticket topic after h
    simp at h

theorem Orderly.take {g h : Chronicle A} (ho : Orderly (g ++ h)) : Orderly g := by
  constructor
  · intro before ticket topic handler after he
    exact ho.made before ticket topic handler (after ++ h) (by simp [he])
  · intro before ticket topic after he
    exact ho.given before ticket topic (after ++ h) (by simp [he])

/-- one more note -/
theorem Orderly.snoc {h : Chronicle A} (ho : h.Orderly) {note : Note A}
    (hm : ∀ ticket topic handler, note = .subscribed ticket topic handler → ticket = h.tickets.length)
    (hg : ∀ ticket topic, note = .unsubscribed ticket topic → ∃ handler, .subscribed ticket topic handler ∈ h) :
    Orderly (h ++ [note]) := by
  constructor
  · intro before ticket topic handler after he
    rcases mid_append he with ⟨rest, rfl, -⟩ | ⟨mid, rfl, hmid⟩
    · exact ho.made before ticket topic handler rest rfl
    · obtain ⟨rfl, rfl⟩ := eq_of_single hmid
      simpa using hm ticket topic handler rfl
  · intro before ticket topic after he
    rcases mid_append he with ⟨rest, rfl, -⟩ | ⟨mid, rfl, hmid⟩
    · exact ho.given before ticket topic rest rfl
    · obtain ⟨rfl, rfl⟩ := eq_of_single hmid
      simpa using hg ticket topic rfl

theorem Orderly.tickets_eq {h : Chronicle A} (ho : h.Orderly) : h.tickets = List.range h.tickets.length := by
  induction h using List.reverseRecOn with
  | nil => rfl
  | append_singleton h note ih =>
    have hrange := ih ho.take
    cases note with
    | subscribed ticket topic handler =>
      have hticket : ticket = (tickets h).length := ho.made h ticket topic handler [] rfl
      have hnew : tickets [Note.subscribed ticket topic handler] = [ticket] := rfl
      rw [tickets_append, hnew, List.length_append, List.length_singleton, List.range_succ, ← hrange, hticket]
    | _ =>
      rw [tickets_append]
      exact (List.append_nil _).symm ▸ hrange

/-- no ticket is given out twice -/
theorem Orderly.nodup {h : Chronicle A} (ho : h.Orderly) : h.tickets.Nodup := ho.tickets_eq ▸ List.nodup_range

/-- a ticket belongs to one note -/
theorem eq_of_ticket {h : Chronicle A} (hn : h.tickets.Nodup) {m n : Note A} (hm : m ∈ h) (hm' : n ∈ h) {ticket : Nat}
    (ht : m.ticket? = some ticket) (ht' : n.ticket? = some ticket) : m = n := by
  induction h with
  | nil => cases hm
  | cons note h ih =>
    have hother : ∀ {k : Note A}, note.ticket? = some ticket → k ∈ h → k.ticket? ≠ some ticket := by
      intro k hnote hk hk'
      rw [tickets, List.filterMap_cons_some hnote, List.nodup_cons] at hn
      exact hn.1 (List.mem_filterMap.2 ⟨k, hk, hk'⟩)
    rcases List.mem_cons.1 hm with rfl | hin <;> rcases List.mem_cons.1 hm' with rfl | hin'
    · rfl
    · exact absurd ht' (hother ht hin')
    · exact absurd ht (hother ht' hin)
    · refine ih (hn.sublist ?_) hin hin'
      exact (List.sublist_cons_self note h).filterMap _

/-- a ticket that stands has the topic it was made for -/
theorem Orderly.topic_of_standing {h : Chronicle A} (ho : h.Orderly) {x : Subscription A} (hx : x ∈ h.standing)
    {topic : String} {handler : A} (hm : .subscribed x.ticket topic handler ∈ h) : x.topic = topic := by
  have h1 := eq_of_ticket ho.nodup (mem_of_standing hx) hm rfl rfl
  exact (Note.subscribed.inj h1).2.1

/-- ending a subscription takes out that one, if it stands, and no other -/
theorem Orderly.ended {h : Chronicle A} (ho : h.Orderly) (ticket : Nat) : ∃ pre gone post,
    h.standing = pre ++ gone ++ post ∧ h.standing.filter (·.ticket != ticket) = pre ++ post ∧
      gone.length ≤ 1 ∧ (∀ x ∈ gone, x.ticket = ticket) ∧ ∀ x ∈ pre ++ post, x.ticket ≠ ticket := by
  have hn : (h.standing.map (·.ticket)).Nodup := ho.nodup.sublist (tickets_standing_sublist h)
  have hstays : ∀ l : List (Subscription A), (∀ x ∈ l, x.ticket ≠ ticket) → l.filter (·.ticket != ticket) = l :=
    fun l hl => List.filter_eq_self.2 fun x hx => by simpa using hl x hx
  by_cases hin : ∃ x ∈ h.standing, x.ticket = ticket
  · obtain ⟨x, hx, rfl⟩ := hin
    obtain ⟨pre, post, hsplit⟩ := List.append_of_mem hx
    rw [hsplit] at hn ⊢
    simp only [List.map_append, List.map_cons, List.nodup_append, List.nodup_cons, List.mem_map, List.mem_cons] at hn
    obtain ⟨-, ⟨hpost, -⟩, hpre⟩ := hn
    have hpre' : ∀ y ∈ pre, y.ticket ≠ x.ticket := fun y hy => hpre _ ⟨y, hy, rfl⟩ _ (.inl rfl)
    have hpost' : ∀ y ∈ post, y.ticket ≠ x.ticket := fun y hy he => hpost ⟨y, hy, he⟩
    refine ⟨pre, [x], post, by simp, ?_, by simp, by simp, ?_⟩
    · simp [List.filter_append, hstays pre hpre', hstays post hpost']
    · intro y hy
      rcases List.mem_append.1 hy with hy | hy
      · exact hpre' y hy
      · exact hpost' y hy
  · have hall : ∀ x ∈ h.standing, x.ticket ≠ ticket := fun x hx he => hin ⟨x, hx, he⟩
    exact ⟨h.standing, [], [], by simp, by simpa using hstays _ hall, by simp, by simp, by simpa using hall⟩

end Chronicle

/-! ## One list for each topic -/

/-- subscribers with one list for each topic, which is made for the first of them and removed with the last -/
structure Directory (A : Type) where
  lists : Entries (List (Nat × A))
  nextTicket : Nat

namespace Directory

/-- adds a handler to the list of its topic -/
def subscribe (d : Directory A) (topic : String) (handler : A) : Directory A where
  lists := d.lists.set topic ((d.lists.get? topic).getD [] ++ [(d.nextTicket, handler)])
  nextTicket := d.nextTicket + 1

/-- takes one subscription off the list of its topic -/
def unsubscribe (d : Directory A) (ticket : Nat) (topic : String) : Directory A :=
  match d.lists.get? topic with
  | some list =>
    let left := list.filter (·.1 != ticket)
    { d with lists := if left.isEmpty then d.lists.erase topic else d.lists.set topic left }
  | none => d

/-- does again what a note tells -/
def follow (d : Directory A) : Note A → Directory A
  | .subscribed _ topic handler => d.subscribe topic handler
  | .unsubscribed ticket topic => d.unsubscribe ticket topic
  | _ => d

/-- the directory that had the same operations -/
def of (h : Chronicle A) : Directory A := h.foldl follow ⟨[], 0⟩

/-- there is a list for exactly the topics that somebody is subscribed to, and it holds the subscriptions that stand -/
structure StandsFor (d : Directory A) (h : Chronicle A) : Prop where
  lists : ∀ topic, (d.lists.get? topic).getD [] =
    (h.standing.filter (·.topic == topic)).map fun x => (x.ticket, x.handler)
  filled : ∀ topic, d.lists.get? topic ≠ some []
  nextTicket : d.nextTicket = h.tickets.length

theorem StandsFor.subscribe {d : Directory A} {h : Chronicle A} (hs : d.StandsFor h) (topic : String) (handler : A) :
    (d.subscribe topic handler).StandsFor (h ++ [.subscribed h.tickets.length topic handler]) where
  lists t := by
    simp only [Directory.subscribe, Entries.get?_set, Chronicle.standing_subscribed, List.filter_append]
    by_cases ht : t = topic
    · simp [ht, hs.lists, hs.nextTicket]
    · simp [ht, hs.lists, Ne.symm ht]
  filled t := by
    simp only [Directory.subscribe, Entries.get?_set]
    split
    · simp
    · exact hs.filled t
  nextTicket := by simp [Directory.subscribe, hs.nextTicket, Chronicle.tickets, Note.ticket?]

theorem StandsFor.unsubscribe {d : Directory A} {h : Chronicle A} (hs : d.StandsFor h) {ticket : Nat} {topic : String}
    (hother : ∀ x ∈ h.standing, x.ticket = ticket → x.topic = topic) :
    (d.unsubscribe ticket topic).StandsFor (h ++ [.unsubscribed ticket topic]) := by
  have hentries : ∀ t, ((h.standing.filter (·.ticket != ticket)).filter (·.topic == t)).map (fun x => (x.ticket, x.handler)) =
      ((d.lists.get? t).getD []).filter (·.1 != ticket) := by
    intro t
    rw [hs.lists, List.filter_map, List.filter_filter, List.filter_filter]
    simp only [Function.comp_def, Bool.and_comm]
  -- on the other lists the ticket does not occur
  have hkeeps : ∀ t, t ≠ topic → ((d.lists.get? t).getD []).filter (·.1 != ticket) = (d.lists.get? t).getD [] := by
    intro t ht
    refine List.filter_eq_self.2 fun e he => ?_
    rw [hs.lists] at he
    obtain ⟨x, hx, rfl⟩ := List.mem_map.1 he
    rw [List.mem_filter, beq_iff_eq] at hx
    simpa using fun hticket => ht (hx.2.symm.trans (hother x hx.1 hticket))
  have hnext : (d.unsubscribe ticket topic).nextTicket = d.nextTicket := by
    unfold Directory.unsubscribe
    split <;> rfl
  refine ⟨fun t => ?_, fun t => ?_, ?_⟩
  · rw [Chronicle.standing_unsubscribed, hentries]
    unfold Directory.unsubscribe
    cases hl : d.lists.get? topic with
    | none =>
      by_cases ht : t = topic
      · simp [ht, hl]
      · exact (hkeeps t ht).symm
    | some list =>
      by_cases ht : t = topic
      · subst ht
        dsimp only
        split
        · next hempty =>
          rw [Entries.get?_erase, if_pos rfl, hl]
          exact (List.isEmpty_iff.1 hempty).symm
        · rw [Entries.get?_set, if_pos rfl, hl]
          rfl
      · rw [hkeeps t ht]
        dsimp only
        split
        · simp [Entries.get?_erase, ht]
        · simp [Entries.get?_set, ht]
  · unfold Directory.unsubscribe
    cases hl : d.lists.get? topic with
    | none => exact hs.filled t
    | some list =>
      dsimp only
      split
      · rw [Entries.get?_erase]
        split
        · simp
        · exact hs.filled t
      · next hleft =>
        rw [Entries.get?_set]
        split
        · simpa using hleft
        · exact hs.filled t
  · rw [hnext, hs.nextTicket]
    simp [Chronicle.tickets, Note.ticket?]

/-- a table with lists for topics has the subscribers that the chronicle tells of -/
theorem standsFor_of {h : Chronicle A} (ho : h.Orderly) : (of h).StandsFor h := by
  induction h using List.reverseRecOn with
  | nil => exact ⟨fun _ => rfl, fun _ => nofun, rfl⟩
  | append_singleton h note ih =>
    have hs := ih ho.take
    have hof : of (h ++ [note]) = (of h).follow note := by simp [of]
    rw [hof]
    cases note with
    | subscribed ticket topic handler =>
      obtain rfl : ticket = (Chronicle.tickets h).length := ho.made h ticket topic handler [] rfl
      exact hs.subscribe topic handler
    | unsubscribed ticket topic =>
      obtain ⟨handler, hm⟩ := ho.given h ticket topic [] rfl
      exact hs.unsubscribe fun x hx hticket => ho.take.topic_of_standing hx (hticket ▸ hm)
    | counted | fired | called | finished =>
      refine ⟨fun t => ?_, hs.filled, ?_⟩
      · rw [Chronicle.standing_other h rfl fun _ => rfl]
        exact hs.lists t
      · rw [Chronicle.tickets_append]
        exact hs.nextTicket.trans (congrArg List.length (List.append_nil _).symm)

end Directory

/-! ## A channel that is watched -/

/-- a channel with what is around it and what has been noted of it -/
structure Watched (A S : Type) where
  channel : Channel A
  around : S
  chronicle : Chronicle A

namespace Watched

def note (n : Note A) (s : Watched A S) : Watched A S := { s with chronicle := s.chronicle ++ [n] }

def subscribe (topic : String) (handler : A) (s : Watched A S) : Watched A S :=
  let made := s.channel.subscribe topic handler
  note (.subscribed made.2 topic handler) { s with channel := made.1 }

def unsubscribe (ticket : Nat) (topic : String) (s : Watched A S) : Watched A S :=
  note (.unsubscribed ticket topic) { s with channel := s.channel.unsubscribe ticket }

def count (topic : String) (s : Watched A S) : Watched A S := note (.counted topic (s.channel.count topic)) s

def call (run : A → Event → Watched A S → Watched A S) (number : Nat) (event : Event) (handler : A) (s : Watched A S) :
    Watched A S := run handler event (note (.called number handler) s)

def fire (run : A → Event → Watched A S → Watched A S) (topic : String) (event : Event) (s : Watched A S) : Watched A S :=
  let number := s.chronicle.fires
  let o := s.channel.fire topic (call run number event) (note (.fired number topic) s)
  note (.finished number o.2) o.1

/-- the state in which an event has reached these handlers -/
def reached (run : A → Event → Watched A S → Watched A S) (topic : String) (event : Event) (handlers : List A)
    (s : Watched A S) : Watched A S :=
  let number := s.chronicle.fires
  handlers.foldl (fun t handler => call run number event handler t) (note (.fired number topic) s)

/-- one state is reached from another by operations on the channel alone; each handler that an event reaches, wherever it
comes, does no more than that either -/
inductive Passes (run : A → Event → Watched A S → Watched A S) : Watched A S → Watched A S → Prop
  | refl (s : Watched A S) : Passes run s s
  | trans {s t u : Watched A S} (h : Passes run s t) (h' : Passes run t u) : Passes run s u
  | elsewhere (s : Watched A S) (owned : Bool) (running : Nat) (around : S) :
    Passes run s { s with channel := { s.channel with owned, running }, around }
  | subscribe (s : Watched A S) (topic : String) (handler : A) : Passes run s (s.subscribe topic handler)
  | unsubscribe (s : Watched A S) {ticket : Nat} {topic : String} {handler : A}
    (given : .subscribed ticket topic handler ∈ s.chronicle) : Passes run s (s.unsubscribe ticket topic)
  | count (s : Watched A S) (topic : String) : Passes run s (s.count topic)
  | fire (s : Watched A S) (topic : String) (event : Event)
    (h : ∀ pre handler post, s.channel.handlersOf topic = pre ++ handler :: post →
      Passes run (note (.called s.chronicle.fires handler) (s.reached run topic event pre))
        (s.reached run topic event (pre ++ [handler]))) : Passes run s (s.fire run topic event)

/-- what a channel has to do with its chronicle -/
structure Kept (s : Watched A S) : Prop where
  standing : s.channel.subscriptions = s.chronicle.standing
  next : s.channel.nextTicket = s.chronicle.tickets.length
  orderly : s.chronicle.Orderly

variable {run : A → Event → Watched A S → Watched A S} {s t : Watched A S}

theorem Kept.handlersOf (h : s.Kept) (topic : String) : s.channel.handlersOf topic = s.chronicle.live topic := by
  rw [Channel.handlersOf, h.standing]
  rfl

/-- a note that is about no subscription -/
theorem Kept.note (h : s.Kept) {n : Note A} (hs : n.ticket? = none) (he : ∀ ticket, n.ends ticket = false) :
    (s.note n).Kept where
  standing := h.standing.trans (Chronicle.standing_other _ hs he).symm
  next := by
    have hnone : Chronicle.tickets [n] = [] := List.filterMap_cons_none hs
    simpa [Watched.note, hnone] using h.next
  orderly := h.orderly.snoc (fun _ _ _ hn => by subst hn; cases hs) fun ticket topic hn => by
    subst hn
    simpa [Note.ends] using he ticket

theorem Kept.elsewhere (h : s.Kept) (owned : Bool) (running : Nat) (around : S) :
    Kept { s with channel := { s.channel with owned, running }, around } := ⟨h.standing, h.next, h.orderly⟩

theorem Kept.subscribe (h : s.Kept) (topic : String) (handler : A) : (s.subscribe topic handler).Kept where
  standing := by simp [Watched.subscribe, Watched.note, Channel.subscribe, h.standing]
  next := by simp [Watched.subscribe, Watched.note, Channel.subscribe, h.next, Chronicle.tickets, Note.ticket?]
  orderly := by
    refine h.orderly.snoc (fun ticket t handler' hn => ?_) fun _ _ hn => by cases hn
    cases hn
    exact h.next

theorem Kept.unsubscribe (h : s.Kept) {ticket : Nat} {topic : String} {handler : A}
    (given : .subscribed ticket topic handler ∈ s.chronicle) : (s.unsubscribe ticket topic).Kept where
  standing := by simp [Watched.unsubscribe, Watched.note, Channel.unsubscribe, h.standing]
  next := by simp [Watched.unsubscribe, Watched.note, Channel.unsubscribe, h.next, Chronicle.tickets, Note.ticket?]
  orderly := by
    refine h.orderly.snoc (fun _ _ _ hn => by cases hn) fun ticket' topic' hn => ?_
    cases hn
    exact ⟨handler, given⟩

/-- what holds when an event begins, and after each handler that it reaches, holds when all have been called -/
theorem reached_induct {topic : String} {event : Event} {P : List A → Watched A S → Prop}
    (hstart : P [] (s.note (.fired s.chronicle.fires topic)))
    (hstep : ∀ pre handler post, s.channel.handlersOf topic = pre ++ handler :: post →
      P pre (s.reached run topic event pre) →
      P (pre ++ [handler]) (s.reached run topic event (pre ++ [handler]))) :
    P (s.channel.handlersOf topic) (s.reached run topic event (s.channel.handlersOf topic)) := by
  have hall : ∀ pre post, s.channel.handlersOf topic = pre ++ post → P pre (s.reached run topic event pre) := by
    intro pre
    induction pre using List.reverseRecOn with
    | nil => exact fun _ _ => hstart
    | append_singleton pre handler ih =>
      intro post hsplit
      rw [List.append_assoc, List.singleton_append] at hsplit
      exact hstep pre handler post hsplit (ih _ hsplit)
  exact hall _ [] (List.append_nil _).symm

theorem fire_eq (s : Watched A S) (topic : String) (event : Event) :
    s.fire run topic event = (s.reached run topic event (s.channel.handlersOf topic)).note
      (.finished s.chronicle.fires (s.channel.handlersOf topic).length) := rfl

/-- **Step.** Each operation keeps what the channel has to do with its chronicle. -/
theorem Passes.kept (h : Passes run s t) (hk : s.Kept) : t.Kept := by
  induction h with
  | refl => exact hk
  | trans _ _ ih ih' => exact ih' (ih hk)
  | elsewhere s owned running around => exact hk.elsewhere owned running around
  | subscribe s topic handler => exact hk.subscribe topic handler
  | unsubscribe s given => exact hk.unsubscribe given
  | count s topic => exact hk.note rfl fun _ => rfl
  | fire s topic event _ ih =>
    rw [fire_eq]
    refine Kept.note ?_ rfl fun _ => rfl
    exact reached_induct (P := fun _ t => t.Kept) (hk.note rfl fun _ => rfl) fun pre handler post hsplit hpre =>
      ih pre handler post hsplit (hpre.note rfl fun _ => rfl)

end Watched

namespace Chronicle

/-- what an operation adds to a chronicle, `current` being the number of an event that is already on its way: each event
that begins has been told to those whose subscription stood, and has counted them, and each count is of those -/
structure Tells (current : Option Nat) (base new : Chronicle A) : Prop where
  numbers : ∀ note ∈ new, ∀ k, note.number? = some k → (current = some k ∨ base.fires ≤ k) ∧ k < base.fires + new.fires
  fired : ∀ (before : Chronicle A) number topic after, new = before ++ .fired number topic :: after →
    base.fires ≤ number ∧ new.calls number = live (base ++ before) topic ∧
      new.counts number = [(live (base ++ before) topic).length]
  counted : ∀ (before : Chronicle A) topic count after, new = before ++ .counted topic count :: after →
    count = (live (base ++ before) topic).length

variable {current : Option Nat} {base x y : Chronicle A}

theorem Tells.nil : Tells current base [] := by
  refine ⟨fun _ hm => (List.not_mem_nil hm).elim, fun before number topic after h => ?_, fun before topic count after h => ?_⟩
  · simp at h
  · simp at h

/-- a single note that is not the beginning of an event -/
theorem Tells.single {note : Note A}
    (hn : ∀ k, note.number? = some k → current = some k ∧ k < base.fires) (hf : note.begins = false)
    (hc : ∀ topic count, note = .counted topic count → count = (base.live topic).length) : Tells current base [note] := by
  refine ⟨fun n hm k hk => ?_, fun before number topic after h => ?_, fun before topic count after h => ?_⟩
  · obtain rfl := List.mem_singleton.1 hm
    obtain ⟨hcurrent, hlt⟩ := hn k hk
    exact ⟨.inl hcurrent, by omega⟩
  · obtain ⟨-, rfl⟩ := eq_of_single h
    cases hf
  · obtain ⟨rfl, rfl⟩ := eq_of_single h
    rw [List.append_nil]
    exact hc topic count rfl

theorem Tells.weaken (h : Tells none base x) : Tells current base x := by
  refine ⟨fun note hm k hk => ?_, h.fired, h.counted⟩
  obtain ⟨hor, hlt⟩ := h.numbers note hm k hk
  exact ⟨.inr (hor.resolve_left nofun), hlt⟩

/-- two operations one after the other -/
theorem Tells.append (hc : ∀ k, current = some k → k < base.fires) (h : Tells current base x)
    (h' : Tells current (base ++ x) y) : Tells current base (x ++ y) := by
  have hx : ∀ k, base.fires ≤ k → k < base.fires + x.fires → ∀ note ∈ y, note.number? ≠ some k := by
    intro k hle hlt note hm hk
    rcases (h'.numbers note hm k hk).1 with hcurrent | hge
    · exact absurd (hc k hcurrent) (by omega)
    · rw [fires_append] at hge
      omega
  have hy : ∀ k, (base ++ x).fires ≤ k → ∀ note ∈ x, note.number? ≠ some k := by
    intro k hle note hm hk
    have := (h.numbers note hm k hk).2
    rw [fires_append] at hle
    omega
  refine ⟨fun note hm k hk => ?_, fun before number topic after he => ?_, fun before topic count after he => ?_⟩
  · rw [fires_append]
    rcases List.mem_append.1 hm with hm | hm
    · obtain ⟨hor, hlt⟩ := h.numbers note hm k hk
      exact ⟨hor, by omega⟩
    · obtain ⟨hor, hlt⟩ := h'.numbers note hm k hk
      rw [fires_append] at hor hlt
      exact ⟨hor.imp_right fun hge => by omega, by omega⟩
  · rcases mid_append he with ⟨rest, hsplit, -⟩ | ⟨mid, rfl, hsplit⟩
    · obtain ⟨hle, hcalls, hcounts⟩ := h.fired before number topic rest hsplit
      have hlt := (h.numbers (.fired number topic) (by simp [hsplit]) number rfl).2
      have hother := hx number hle hlt
      exact ⟨hle, by rw [calls_append, calls_eq_nil hother, List.append_nil, hcalls],
        by rw [counts_append, counts_eq_nil hother, List.append_nil, hcounts]⟩
    · obtain ⟨hle, hcalls, hcounts⟩ := h'.fired mid number topic after hsplit
      have hother := hy number hle
      rw [List.append_assoc] at hcalls hcounts
      rw [fires_append] at hle
      exact ⟨by omega, by rw [calls_append, calls_eq_nil hother, List.nil_append, hcalls],
        by rw [counts_append, counts_eq_nil hother, List.nil_append, hcounts]⟩
  · rcases mid_append he with ⟨rest, hsplit, -⟩ | ⟨mid, rfl, hsplit⟩
    · exact h.counted before topic count rest hsplit
    · rw [← List.append_assoc]
      exact h'.counted mid topic count after hsplit

/-- a whole event: it begins, its handlers are called, and it gives back their number -/
theorem Tells.event {topic : String} {mid : Chronicle A}
    (h : Tells (some base.fires) (base ++ [.fired base.fires topic]) mid) (hcalls : mid.calls base.fires = base.live topic)
    (hcounts : mid.counts base.fires = []) :
    Tells none base ([.fired base.fires topic] ++ (mid ++ [.finished base.fires (base.live topic).length])) := by
  have hbegun : fires [Note.fired (A := A) base.fires topic] = 1 := rfl
  have hended : fires [Note.finished (A := A) base.fires (base.live topic).length] = 0 := rfl
  have hcall : ∀ k, calls [Note.fired (A := A) base.fires topic] k = [] := fun _ => rfl
  have hcall' : ∀ k, calls [Note.finished (A := A) base.fires (base.live topic).length] k = [] := fun _ => rfl
  refine ⟨fun note hm k hk => ?_, fun before number t after he => ?_, fun before t count after he => ?_⟩
  · rw [fires_append, fires_append, hbegun, hended]
    rcases List.mem_append.1 hm with hm | hm
    · obtain rfl := List.mem_singleton.1 hm
      obtain rfl := Option.some.inj hk
      exact ⟨.inr (Nat.le_refl _), by omega⟩
    · rcases List.mem_append.1 hm with hm | hm
      · obtain ⟨hor, hlt⟩ := h.numbers note hm k hk
        rw [fires_append, hbegun] at hor hlt
        refine ⟨.inr ?_, by omega⟩
        rcases hor with hcurrent | hge
        · exact Nat.le_of_eq (Option.some.inj hcurrent)
        · omega
      · obtain rfl := List.mem_singleton.1 hm
        obtain rfl := Option.some.inj hk
        exact ⟨.inr (Nat.le_refl _), by omega⟩
  · rw [calls_append, calls_append, counts_append, counts_append]
    rcases mid_append he with ⟨rest, hfirst, -⟩ | ⟨later, rfl, hlater⟩
    · obtain ⟨rfl, hn⟩ := eq_of_single hfirst
      obtain ⟨rfl, rfl⟩ := Note.fired.inj hn
      rw [hcalls, hcounts, hcall, hcall']
      simp [counts, Note.countFor?]
    · rcases mid_append hlater with ⟨rest, hsplit, -⟩ | ⟨last, -, hlast⟩
      · obtain ⟨hle, hmid, hmid'⟩ := h.fired later number t rest hsplit
        rw [fires_append, hbegun] at hle
        have hne : base.fires ≠ number := by omega
        rw [hmid, hmid', List.append_assoc, hcall, hcall']
        refine ⟨by omega, by simp, ?_⟩
        simp [counts, Note.countFor?, hne]
      · cases (eq_of_single hlast).2
  · rcases mid_append he with ⟨rest, hfirst, -⟩ | ⟨later, rfl, hlater⟩
    · cases (eq_of_single hfirst).2
    · rcases mid_append hlater with ⟨rest, hsplit, -⟩ | ⟨last, -, hlast⟩
      · rw [← List.append_assoc]
        exact h.counted later t count rest hsplit
      · cases (eq_of_single hlast).2

end Chronicle

namespace Watched

variable {run : A → Event → Watched A S → Watched A S} {s t : Watched A S}

/-- **Run.** What any operations add to the chronicle. -/
theorem Passes.tells (h : Passes run s t) (hk : s.Kept) :
    ∃ new, t.chronicle = s.chronicle ++ new ∧ Chronicle.Tells none s.chronicle new := by
  induction h with
  | refl => exact ⟨[], (List.append_nil _).symm, .nil⟩
  | trans h _ ih ih' =>
    obtain ⟨new, hnew, htells⟩ := ih hk
    obtain ⟨more, hmore, htells'⟩ := ih' (h.kept hk)
    refine ⟨new ++ more, by rw [hmore, hnew, List.append_assoc], ?_⟩
    exact htells.append nofun (hnew ▸ htells')
  | elsewhere => exact ⟨[], (List.append_nil _).symm, .nil⟩
  | subscribe | unsubscribe => exact ⟨_, rfl, .single nofun rfl nofun⟩
  | count s topic =>
    refine ⟨_, rfl, .single nofun rfl fun t number hn => ?_⟩
    obtain ⟨rfl, rfl⟩ := Note.counted.inj hn
    rw [Channel.count, hk.handlersOf]
  | fire s topic event h ih =>
    have hfires : Chronicle.fires (s.chronicle ++ [Note.fired s.chronicle.fires topic]) = s.chronicle.fires + 1 := by
      simp [Chronicle.fires, Note.begins]
    -- the handlers that the event has reached have been called, and what they did is noted in between
    have hmid : ∃ mid, (s.reached run topic event (s.channel.handlersOf topic)).chronicle =
        s.chronicle ++ [.fired s.chronicle.fires topic] ++ mid ∧
          Chronicle.Tells (some s.chronicle.fires) (s.chronicle ++ [.fired s.chronicle.fires topic]) mid ∧
          mid.calls s.chronicle.fires = s.channel.handlersOf topic ∧ mid.counts s.chronicle.fires = [] ∧
          (s.reached run topic event (s.channel.handlersOf topic)).Kept := by
      refine reached_induct (P := fun pre t => ∃ mid, t.chronicle = s.chronicle ++ [.fired s.chronicle.fires topic] ++ mid ∧
        Chronicle.Tells (some s.chronicle.fires) (s.chronicle ++ [.fired s.chronicle.fires topic]) mid ∧
          mid.calls s.chronicle.fires = pre ∧ mid.counts s.chronicle.fires = [] ∧ t.Kept) ?_ ?_
      · exact ⟨[], (List.append_nil _).symm, .nil, rfl, rfl, hk.note rfl fun _ => rfl⟩
      · rintro pre handler post hsplit ⟨mid, hmid, htells, hcalls, hcounts, hkept⟩
        have hnoted := hkept.note (n := .called s.chronicle.fires handler) rfl fun _ => rfl
        obtain ⟨new, hnew, hadds⟩ := ih pre handler post hsplit hnoted
        have hbase : ((s.reached run topic event pre).note (.called s.chronicle.fires handler)).chronicle =
            s.chronicle ++ [.fired s.chronicle.fires topic] ++ (mid ++ [.called s.chronicle.fires handler]) := by
          simp [note, hmid]
        rw [hbase] at hnew hadds
        have hcurrent : ∀ k, some s.chronicle.fires = some k →
            k < Chronicle.fires (s.chronicle ++ [Note.fired s.chronicle.fires topic]) := by
          intro k hk
          obtain rfl := Option.some.inj hk
          omega
        have hcalled : Chronicle.Tells (some s.chronicle.fires)
            (s.chronicle ++ [.fired s.chronicle.fires topic] ++ mid) [.called s.chronicle.fires handler] := by
          refine .single (fun k hk => ⟨hk, ?_⟩) rfl nofun
          have := hcurrent k hk
          rw [Chronicle.fires_append]
          omega
        have hnumber : ∀ note ∈ new, note.number? ≠ some s.chronicle.fires := by
          intro note hm hk
          have hge := (hadds.numbers note hm _ hk).1.resolve_left nofun
          rw [Chronicle.fires_append, hfires] at hge
          omega
        refine ⟨mid ++ [.called s.chronicle.fires handler] ++ new, ?_, ?_, ?_, ?_, (h pre handler post hsplit).kept hnoted⟩
        · simp only [hnew, List.append_assoc]
        · exact (htells.append hcurrent hcalled).append hcurrent hadds.weaken
        · rw [Chronicle.calls_append, Chronicle.calls_append, hcalls, Chronicle.calls_eq_nil hnumber]
          simp [Chronicle.calls, Note.callFor?]
        · rw [Chronicle.counts_append, Chronicle.counts_append, hcounts, Chronicle.counts_eq_nil hnumber]
          rfl
    obtain ⟨mid, hmid, htells, hcalls, hcounts, -⟩ := hmid
    rw [hk.handlersOf] at hcalls
    refine ⟨_, ?_, htells.event hcalls hcounts⟩
    rw [fire_eq, note, hmid, hk.handlersOf]
    simp

end Watched

/-! ## Who is called -/

namespace Watched

/-- **Subscriptions are settled when an event begins.** After any operations on a new channel, those of handlers that are
called meanwhile among them: each event, whether or not another one is on its way, has called the handlers whose
subscription to its topic stood when it began, in the order of subscription, and no others, and has given back their
number; whoever ended a subscription has taken out that one, if it stood, and no other; whoever counted has counted those
that stood, and so does the channel. All this is also so of a table that keeps a list for each topic only as long as there
is somebody on it. -/
theorem fires_standing {run : A → Event → Watched A S → Watched A S} {s t : Watched A S} (hc : s.channel = .new)
    (hs : s.chronicle = []) (h : Passes run s t) :
    (∀ (before after : Chronicle A) number topic, t.chronicle = before ++ .fired number topic :: after →
      t.chronicle.calls number = before.live topic ∧ t.chronicle.counts number = [(before.live topic).length]) ∧
    (∀ (before after : Chronicle A) ticket topic, t.chronicle = before ++ .unsubscribed ticket topic :: after →
      ∃ pre gone post, before.standing = pre ++ gone ++ post ∧
        Chronicle.standing (before ++ [.unsubscribed ticket topic]) = pre ++ post ∧ gone.length ≤ 1 ∧
        (∀ x ∈ gone, x.ticket = ticket ∧ x.topic = topic) ∧ ∀ x ∈ pre ++ post, x.ticket ≠ ticket) ∧
    (∀ (before after : Chronicle A) topic count, t.chronicle = before ++ .counted topic count :: after →
      count = (before.live topic).length) ∧
    (∀ topic, t.channel.handlersOf topic = t.chronicle.live topic ∧
      t.channel.count topic = (t.chronicle.live topic).length) ∧
    ∀ (before after : Chronicle A), t.chronicle = before ++ after → (Directory.of before).StandsFor before := by
  have hstart : s.Kept := by
    refine ⟨?_, ?_, ?_⟩
    · rw [hc, hs]
      rfl
    · rw [hc, hs]
      rfl
    · exact hs ▸ .nil
  have hend := h.kept hstart
  obtain ⟨new, hnew, htells⟩ := h.tells hstart
  rw [hs, List.nil_append] at hnew
  rw [hs] at htells
  subst hnew
  refine ⟨fun before after number topic he => ?_, fun before after ticket topic he => ?_,
    fun before after topic count he => ?_, fun topic => ?_, fun before after he => ?_⟩
  · exact (htells.fired before number topic after he).2
  · obtain ⟨handler, given⟩ := hend.orderly.given before ticket topic after he
    have ho : before.Orderly := Chronicle.Orderly.take (h := .unsubscribed ticket topic :: after) (he ▸ hend.orderly)
    obtain ⟨pre, gone, post, hsplit, hleft, hone, hgone, hother⟩ := ho.ended ticket
    refine ⟨pre, gone, post, hsplit, ?_, hone, fun x hx => ⟨hgone x hx, ?_⟩, hother⟩
    · rw [Chronicle.standing_unsubscribed, hleft]
    · have hstands : x ∈ before.standing := by
        rw [hsplit]
        exact List.mem_append_left _ (List.mem_append_right _ hx)
      exact ho.topic_of_standing hstands (hgone x hx ▸ given)
  · exact htells.counted before topic count after he
  · exact ⟨hend.handlersOf topic, congrArg List.length (hend.handlersOf topic)⟩
  · exact Directory.standsFor_of (Chronicle.Orderly.take (h := after) (he ▸ hend.orderly))

/-- the first time that the handler `0` is called, it ends the subscription of the handler `1`, subscribes `2` and passes
the event on once more -/
def restless (handler : Nat) (event : Event) (s : Watched Nat Bool) : Watched Nat Bool :=
  if handler = 0 ∧ s.around = false then
    (({ s with around := true }.unsubscribe 1 "a").subscribe "a" 2).fire (fun _ _ s => s) "a" event
  else s

def press : Event := ⟨"press", .null⟩

/-- an event reaches two handlers, then all subscriptions to the topic are ended, a new one is made, and one that has been
ended before is ended once more -/
def restlessRun : Watched Nat Bool :=
  let started : Watched Nat Bool := ⟨.new, false, []⟩
  let fired := ((started.subscribe "a" 0).subscribe "a" 1).fire restless "a" press
  (((fired.unsubscribe 0 "a").unsubscribe 2 "a").subscribe "a" 3).unsubscribe 1 "a"

theorem passes_restless : Passes restless ⟨.new, false, []⟩ restlessRun := by
  have hidle : ∀ number handler (t : Watched Nat Bool), t.around = true →
      call restless number press handler t = note (.called number handler) t :=
    fun number handler t ht => if_neg fun h => by simp [note, ht] at h
  -- the handlers that the second press reaches do nothing
  have hagain : ∀ s : Watched Nat Bool, s.around = true → Passes restless s (s.fire restless "a" press) := by
    intro s hs
    refine .fire s "a" press fun pre handler post _ => ?_
    have hreached : ∀ handlers, (s.reached restless "a" press handlers).around = true := by
      intro handlers
      induction handlers using List.reverseRecOn with
      | nil => exact hs
      | append_singleton handlers handler ih =>
        rw [reached, List.foldl_append]
        exact (congrArg around (hidle _ handler _ ih)).trans ih
    have hcall : s.reached restless "a" press (pre ++ [handler]) =
        note (.called s.chronicle.fires handler) (s.reached restless "a" press pre) := by
      rw [reached, List.foldl_append]
      exact hidle _ handler _ (hreached pre)
    exact hcall ▸ .refl _
  have htwo : Passes restless ⟨.new, false, []⟩ _ := (Passes.subscribe _ "a" 0).trans (.subscribe _ "a" 1)
  have hfired := htwo.trans <| .fire _ "a" press fun pre handler post hsplit => by
    change [0, 1] = pre ++ handler :: post at hsplit
    match pre, hsplit with
    | [], hsplit =>
      obtain ⟨rfl, -⟩ := List.cons.inj hsplit
      refine .trans (.elsewhere _ true 0 true) (.trans (@Passes.unsubscribe _ _ _ _ 1 "a" 1 ?_)
        (.trans (.subscribe _ "a" 2) (hagain _ rfl)))
      exact List.mem_of_getElem? (i := 1) rfl
    | [_], hsplit =>
      obtain ⟨-, hsplit⟩ := List.cons.inj hsplit
      obtain ⟨rfl, -⟩ := List.cons.inj hsplit
      exact .refl _
    | _ :: _ :: _, hsplit => simp at hsplit
  have hended := (hfired.trans (.unsubscribe _ (List.mem_of_getElem? (i := 0) rfl))).trans
    (.unsubscribe _ (List.mem_of_getElem? (i := 5) rfl))
  exact (hended.trans (.subscribe _ "a" 3)).trans (.unsubscribe _ (List.mem_of_getElem? (i := 1) rfl))

/-- the event reaches both handlers, and the one that is passed on meanwhile reaches `0` and `2` -/
theorem fires_standing_restless : Passes restless ⟨.new, false, []⟩ restlessRun ∧
    restlessRun.chronicle.calls 0 = [0, 1] ∧ restlessRun.chronicle.calls 1 = [0, 2] ∧
      restlessRun.chronicle.counts 0 = [2] ∧ restlessRun.channel.handlersOf "a" = [3] := by
  obtain ⟨hfired, -, -, hlive, -⟩ := fires_standing rfl rfl passes_restless
  obtain ⟨hcalls, hcounts⟩ := hfired [.subscribed 0 "a" 0, .subscribed 1 "a" 1] _ 0 "a" rfl
  obtain ⟨hcalls', -⟩ := hfired [.subscribed 0 "a" 0, .subscribed 1 "a" 1, .fired 0 "a", .called 0 0, .unsubscribed 1 "a",
    .subscribed 2 "a" 2] _ 1 "a" rfl
  exact ⟨passes_restless, hcalls.trans (by decide), hcalls'.trans (by decide), hcounts.trans (by decide),
    (hlive "a").1.trans (by rfl)⟩

end Watched

end LiveMarkup
