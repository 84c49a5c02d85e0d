import Mathlib
import ScoreSequencer.Proofs.Score.Walk
/-!
# What an arrangement sounds like

The music of an arrangement is how long it is and which notes sound when, and no
longer how they are grouped. Pieces of music can be put side by side or one after
the other. Both are associative, and silence does nothing in either, so the music
of a composite does not change when its parts are grouped (`foldr_group`).

`Built.extent_music` and `Built.soundings_music` say that for arrangements that can
be built the music is made up of the extent and the occurrences.
-/

namespace ScoreSequencer

/-- A note as it sounds, with the positions at which it begins and ends. -/
@[ext]
structure Sounding where
  pitch : Pitch
  onset : ℚ
  release : ℚ

namespace Sounding

def delayed (d : ℚ) (n : Sounding) : Sounding := ⟨n.pitch, d + n.onset, d + n.release⟩

theorem delayed_zero (n : Sounding) : n.delayed 0 = n := by
  simp [delayed]

theorem delayed_delayed (d e : ℚ) (n : Sounding) : (n.delayed e).delayed d = n.delayed (d + e) := by
  simp [delayed, add_assoc]

end Sounding

/-- The length of a piece and its notes, from the start of the piece. -/
@[ext]
structure Music where
  extent : ℚ≥0
  soundings : List Sounding

namespace Music

def silence : Music := ⟨0, []⟩

/-- Two pieces that begin together. -/
def beside (x y : Music) : Music := ⟨max x.extent y.extent, x.soundings ++ y.soundings⟩

/-- One piece, and the other when it has ended. -/
def andThen (x y : Music) : Music :=
  ⟨x.extent + y.extent, x.soundings ++ y.soundings.map (·.delayed x.extent)⟩

instance : Std.Associative beside where
  assoc _ _ _ := Music.ext (max_assoc _ _ _) (List.append_assoc _ _ _)

instance : Std.LawfulIdentity beside silence where
  left_id _ := Music.ext (max_eq_right zero_le) (List.nil_append _)
  right_id _ := Music.ext (max_eq_left zero_le) (List.append_nil _)

instance : Std.Associative andThen where
  assoc x y z := by
    refine Music.ext (add_assoc _ _ _) ?_
    simp [andThen, Sounding.delayed_delayed, Function.comp_def]

instance : Std.LawfulIdentity andThen silence where
  left_id x := by
    refine Music.ext (zero_add _) ?_
    simp [andThen, silence, Sounding.delayed_zero]
  right_id x := Music.ext (add_zero _) (List.append_nil _)

/-- Combining some of the parts first makes no difference. -/
theorem foldr_group (combine : Music → Music → Music) [Std.Associative combine]
    [Std.LawfulIdentity combine silence] (before parts after : List Music) :
    (before ++ parts.foldr combine silence :: after).foldr combine silence =
      (before ++ parts ++ after).foldr combine silence := by
  have hparts : ∀ rest, parts.foldr combine rest = combine (parts.foldr combine silence) rest := by
    intro rest
    have hunit : combine silence rest = rest := Std.LawfulLeftIdentity.left_id rest
    calc parts.foldr combine rest = parts.foldr combine (combine silence rest) := by rw [hunit]
      _ = combine (parts.foldr combine silence) rest := List.foldr_assoc
  rw [List.append_assoc, List.foldr_append, List.foldr_append, List.foldr_cons, List.foldr_append, ← hparts]

end Music

namespace Arrangement

mutual
def music : Arrangement → Music
  | note pitch length => ⟨length.value.toNNRat, [⟨pitch, 0, length.value⟩]⟩
  | rest length => ⟨length.value.toNNRat, []⟩
  | harmony parts _ => musicTogether parts
  | melody parts _ => musicInTurn parts

def musicTogether : List Arrangement → Music
  | [] => .silence
  | part :: parts => (music part).beside (musicTogether parts)

def musicInTurn : List Arrangement → Music
  | [] => .silence
  | part :: parts => (music part).andThen (musicInTurn parts)
end

theorem music_harmony (parts : List Arrangement) (l : NoteLength) :
    (harmony parts l).music = (parts.map music).foldr .beside .silence := by
  rw [music]
  induction parts with
  | nil => rfl
  | cons part parts ih => rw [musicTogether, ih, List.map_cons, List.foldr_cons]

theorem music_melody (parts : List Arrangement) (l : NoteLength) :
    (melody parts l).music = (parts.map music).foldr .andThen .silence := by
  rw [music]
  induction parts with
  | nil => rfl
  | cons part parts ih => rw [musicInTurn, ih, List.map_cons, List.foldr_cons]

end Arrangement

/-! ## Music and occurrences -/

def Occurrence.sounding (o : Occurrence) : Sounding := ⟨o.pitch, o.onset, o.release⟩

theorem Occurrence.sounding_under (ancestor : Ancestor) (o : Occurrence) :
    (o.under ancestor).sounding = o.sounding.delayed ancestor.delay := by
  rw [sounding, onset_under, release_under]
  rfl

namespace Arrangement

variable {parts : List Arrangement} {node : Arrangement}

theorem extent_musicTogether (h : ∀ part ∈ parts, (part.music.extent : ℚ) = part.extent) :
    ((musicTogether parts).extent : ℚ) = extentTogether parts := by
  induction parts with
  | nil => rfl
  | cons part parts ih =>
    obtain ⟨hpart, hrest⟩ := List.forall_mem_cons.1 h
    rw [musicTogether, extentTogether, Music.beside, NNRat.coe_max, hpart, ih hrest]

theorem extent_musicInTurn (h : ∀ part ∈ parts, (part.music.extent : ℚ) = part.extent) :
    ((musicInTurn parts).extent : ℚ) = extentInTurn parts := by
  induction parts with
  | nil => rfl
  | cons part parts ih =>
    obtain ⟨hpart, hrest⟩ := List.forall_mem_cons.1 h
    rw [musicInTurn, extentInTurn, Music.andThen, NNRat.coe_add, hpart, ih hrest]

theorem Built.extent_music (built : node.Built) : (node.music.extent : ℚ) = node.extent := by
  induction built with
  | note pitch h => exact Rat.coe_toNNRat _ h.value_nonneg
  | rest h => exact Rat.coe_toNNRat _ h.value_nonneg
  | together _ hok ih =>
    obtain ⟨_, _, rfl⟩ := together_eq_ok.1 hok
    exact extent_musicTogether ih
  | inTurn _ hok ih =>
    obtain ⟨_, _, rfl⟩ := inTurn_eq_ok.1 hok
    exact extent_musicInTurn ih

theorem soundings_musicTogether
    (h : ∀ part ∈ parts, part.occurrences.map Occurrence.sounding = part.music.soundings) :
    (occurrencesTogether parts).map Occurrence.sounding = (musicTogether parts).soundings := by
  induction parts with
  | nil => rfl
  | cons part parts ih =>
    obtain ⟨hpart, hrest⟩ := List.forall_mem_cons.1 h
    rw [occurrencesTogether, musicTogether, Music.beside, List.map_append, ih hrest, ← hpart, List.map_map]
    simp [Function.comp_def, Occurrence.sounding_under, Ancestor.delay, Sounding.delayed_zero]

/-- After some parts, the music that follows is delayed by their extents. -/
theorem soundings_musicInTurn (before : List Arrangement)
    (h : ∀ part ∈ parts, part.Built ∧ part.occurrences.map Occurrence.sounding = part.music.soundings) :
    (occurrencesInTurn before parts).map Occurrence.sounding =
      (musicInTurn parts).soundings.map (·.delayed (before.map extent).sum) := by
  induction parts generalizing before with
  | nil => rfl
  | cons part parts ih =>
    obtain ⟨⟨hbuilt, hpart⟩, hrest⟩ := List.forall_mem_cons.1 h
    rw [occurrencesInTurn, musicInTurn, Music.andThen, List.map_append, ih _ hrest, List.map_append, ← hpart,
      hbuilt.extent_music]
    simp [Function.comp_def, Occurrence.sounding_under, Ancestor.delay, Sounding.delayed_delayed]

theorem Built.soundings_music (built : node.Built) :
    node.occurrences.map Occurrence.sounding = node.music.soundings := by
  induction built with
  | note pitch h => simp [occurrences, music, Occurrence.sounding, Occurrence.onset, Occurrence.release]
  | rest h => rfl
  | together _ hok ih =>
    obtain ⟨_, _, rfl⟩ := together_eq_ok.1 hok
    exact soundings_musicTogether ih
  | inTurn hparts hok ih =>
    obtain ⟨_, _, rfl⟩ := inTurn_eq_ok.1 hok
    have hmusic := soundings_musicInTurn [] fun part hpart => ⟨hparts part hpart, ih part hpart⟩
    simpa [occurrences, music, Sounding.delayed_zero] using hmusic

end Arrangement

end ScoreSequencer
