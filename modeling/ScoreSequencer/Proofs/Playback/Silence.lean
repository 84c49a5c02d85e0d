import Mathlib
import ScoreSequencer.Proofs.Playback.Turns
import ScoreSequencer.Proofs.Sequence.Compilation
/-!
# A failed playback leaves nothing sounding

A receiver keeps the set of the keys that sound, from the messages it is handed.
All events of a compiled sequence are on one channel, so wherever the playback
fails, one release of that channel silences all that was triggered before.
-/

namespace ScoreSequencer

/-! ## The receiver -/

/-- The keys that sound after a message. -/
def Message.sound (sounding : Finset (Channel × Key)) : Message → Finset (Channel × Key)
  | noteOn c k _ => insert (c, k) sounding
  | noteOff c k _ => sounding.erase (c, k)
  | allNotesOff c => sounding.filter (·.1 ≠ c)

/-- The keys that sound after some messages, in a receiver that was silent. -/
def sounding (messages : List Message) : Finset (Channel × Key) := messages.foldl Message.sound ∅

/-- A message of a channel lets only keys of that channel sound. -/
theorem Message.sound_channel {keys : Finset (Channel × Key)} {c : Channel} (hkeys : ∀ p ∈ keys, p.1 = c)
    {m : Message} (hm : m.channel = c) : ∀ p ∈ m.sound keys, p.1 = c := by
  intro p hp
  cases m with
  | noteOn d k v =>
    rcases Finset.mem_insert.1 hp with rfl | hp
    · exact hm
    · exact hkeys p hp
  | noteOff d k v => exact hkeys p (Finset.mem_of_mem_erase hp)
  | allNotesOff d => exact hkeys p (Finset.mem_filter.1 hp).1

theorem sounding_channel {messages : List Message} {c : Channel} (h : ∀ m ∈ messages, m.channel = c) :
    ∀ p ∈ sounding messages, p.1 = c := by
  unfold sounding
  have hempty : ∀ p ∈ (∅ : Finset (Channel × Key)), p.1 = c := by simp
  generalize (∅ : Finset (Channel × Key)) = keys at hempty
  induction messages generalizing keys with
  | nil => exact hempty
  | cons m messages ih =>
    obtain ⟨hm, hrest⟩ := List.forall_mem_cons.1 h
    exact ih hrest (m.sound keys) (Message.sound_channel hempty hm)

/-- After messages of one channel, releasing the channel leaves silence. -/
theorem sounding_release {messages : List Message} {c : Channel} (h : ∀ m ∈ messages, m.channel = c) :
    sounding (messages ++ [.allNotesOff c]) = ∅ := by
  rw [sounding, List.foldl_append]
  refine Finset.filter_eq_empty_iff.2 fun p hp => ?_
  rw [not_not]
  exact sounding_channel h p hp

/-! ## The first refusal -/

/-- If some messages are taken and the next one is refused, then the playback fails with that
fault, and what it attempted is the messages up to the refused one and a release of its channel. -/
theorem Takes.of_refused {σ : Type} {stage : Stage (StateM σ)} {figures : Playback} {r last : σ} {events : List Event}
    {outcome : Except Fault Playback} {turns : List (Turn σ)} (h : Takes stage figures r events outcome turns last)
    {k : Nat} {fault : Fault} (hanswers : List.replicate k (.ok ()) ++ [.error fault] <+: turns.map Turn.answer) :
    outcome = .error fault ∧ ∃ e answer, events[k]? = some e ∧
      turns.map Turn.attempt = ((events.take k).map Event.message).map .taken ++
        [.refused e.message fault, ⟨.allNotesOff e.channel, answer⟩] := by
  induction h generalizing k with
  | done => simp at hanswers
  | @next figures r last e events outcome turns htaken hrest ih =>
    cases k with
    | zero => simp [htaken] at hanswers
    | succ k =>
      rw [List.replicate_succ, List.cons_append, List.map_cons, List.cons_prefix_cons] at hanswers
      obtain ⟨houtcome, f, answer, hf, hattempts⟩ := ih hanswers.2
      refine ⟨houtcome, f, answer, hf, ?_⟩
      rw [List.map_cons, hattempts, Turn.attempt, htaken]
      rfl
  | @stop figures r e events refusal hrefused =>
    cases k with
    | zero =>
      simp only [List.replicate_zero, List.nil_append, List.map_cons, hrefused, List.cons_prefix_cons] at hanswers
      cases hanswers.1
      refine ⟨rfl, e, (stage.release e.channel (stage.turn e r).answered).answer, rfl, ?_⟩
      rw [List.map_cons, Turn.attempt, hrefused]
      rfl
    | succ k => simp [List.replicate_succ, hrefused] at hanswers

/-! ## Main theorem -/

theorem Event.channel_message (e : Event) : e.message.channel = e.channel := by
  unfold message
  cases e.trigger <;> rfl

/-- If the instrument takes the messages of the first `k` events of a compiled sequence and
refuses the next one, but does not refuse whatever is attempted after that, then the playback
fails with that fault, the last message taken is a release of the voice's channel, and nothing
sounds any more. -/
theorem Stage.play_silences {root : Arrangement} {start : Instant} {timing : Timing} {voice : Voice} {s : Sequence}
    (h : Sequence.compile root start timing voice = .ok s) {σ : Type} (stage : Stage (StateM σ)) (r : σ) {k : Nat}
    {fault : Fault}
    (hanswers : List.replicate k (.ok ()) ++ [.error fault] <+: (stage.attempts s r).map Attempt.answer)
    (hnext : ∀ a, ((stage.attempts s r).map Attempt.answer)[k + 1]? = some a → a = .ok ()) :
    ((stage.play s).run r).1 = .error fault ∧
    accepted (stage.attempts s r) = (s.events.take k).map Event.message ++ [.allNotesOff voice.channel] ∧
    sounding (accepted (stage.attempts s r)) = ∅ := by
  have hchannel := Sequence.channel_of_compile h
  obtain ⟨last, htakes, -⟩ := stage.play_takes s r
  have hturns : (stage.turns s r).map Turn.answer = (stage.attempts s r).map Attempt.answer := by
    rw [Stage.attempts, List.map_map]
    rfl
  rw [← hturns] at hanswers
  obtain ⟨houtcome, e, answer, he, hattempts⟩ := htakes.of_refused hanswers
  replace hattempts : stage.attempts s r = _ := hattempts
  have hk : k ≤ s.events.length := (List.getElem?_eq_some_iff.1 he).1.le
  -- The attempt after the refused one is the release.
  have hreleased : answer = .ok () := by
    refine hnext answer ?_
    rw [hattempts]
    simp [hk]
  have haccepted : accepted (stage.attempts s r) =
      (s.events.take k).map Event.message ++ [.allNotesOff voice.channel] := by
    rw [hattempts, accepted_append, accepted_taken, hreleased, hchannel e (List.mem_of_getElem? he)]
    rfl
  refine ⟨houtcome, haccepted, ?_⟩
  rw [haccepted]
  refine sounding_release fun m hm => ?_
  obtain ⟨f, hf, rfl⟩ := List.mem_map.1 hm
  rw [f.channel_message, hchannel f (List.mem_of_mem_take hf)]

/-! ## An instrument that is unplugged for a moment -/

/-- A stage without a clock, in a state that counts the attempts; the second one fails. -/
def Stage.unplugged : Stage (StateM Nat) where
  waitUntil _ := return .zero
  send _ := fun n => (if n = 1 then .error (.transmission "unplugged") else .ok (), n + 1)
  write _ := return ()

/-- The release of the note fails, and the release of the channel silences it. -/
theorem play_silences_unplugged :
    ((Stage.unplugged.play crotchetSequence).run 0).1 = .error (.transmission "unplugged") ∧
    accepted (Stage.unplugged.attempts crotchetSequence 0) =
      [.noteOn default default default, .allNotesOff default] ∧
    sounding (accepted (Stage.unplugged.attempts crotchetSequence 0)) = ∅ := by
  have hanswers : List.replicate 1 (.ok ()) ++ [.error (.transmission "unplugged")] <+:
      (Stage.unplugged.attempts crotchetSequence 0).map Attempt.answer := by
    decide +kernel
  have hattempts : Stage.unplugged.attempts crotchetSequence 0 = [.taken (.noteOn default default default),
      .refused (.noteOff default default default) (.transmission "unplugged"), .taken (.allNotesOff default)] := rfl
  refine Stage.play_silences crotchet_compiles Stage.unplugged 0 hanswers fun a ha => ?_
  rw [hattempts] at ha
  exact (Option.some.inj ha).symm

end ScoreSequencer
