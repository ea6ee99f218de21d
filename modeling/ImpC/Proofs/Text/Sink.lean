import Mathlib.Data.List.Basic
import ImpC.Text.Basic

/-!
# Writing piece by piece

A sink does not see where one piece ends and the next begins: pieces that are written one after the
other leave it as they would if they were written at once, whether all of them fit or not. A draft
keeps all pieces.
-/
namespace ImpC

theorem Text.utf8_append (s t : Text) : utf8 (s ++ t) = utf8 s ++ utf8 t := List.flatMap_append

theorem Output.writeAll_append {σ : Type} [Output σ] (s : σ) (ts us : List Text) :
    writeAll s (ts ++ us) = writeAll s ts >>= (writeAll · us) := by
  induction ts generalizing s with
  | nil => rfl
  | cons t ts ih =>
    rw [List.cons_append, writeAll, writeAll, bind_assoc]
    exact bind_congr fun s => ih s

/-- Pieces that make up lines. -/
theorem flatten_pieces {α : Type} {pieces : α → List Text} {line : α → Text}
    (h : ∀ x, (pieces x).flatten = line x ++ ['\n']) (xs : List α) :
    (xs.flatMap pieces).flatten = xs.flatMap fun x => line x ++ ['\n'] := by
  induction xs with
  | nil => rfl
  | cons x xs ih => rw [List.flatMap_cons, List.flatMap_cons, List.flatten_append, h, ih]

/-- A draft takes all pieces. -/
theorem Draft.writeAll (d : Draft) (ts : List Text) :
    Output.writeAll d ts = .ok ⟨ts.reverse ++ d.written⟩ := by
  induction ts generalizing d with
  | nil => rfl
  | cons t ts ih =>
    rw [List.reverse_cons, List.append_assoc]
    exact ih ⟨t :: d.written⟩

/-- A draft keeps everything, the last text first. -/
theorem Draft.writeAll_empty (ts : List Text) : Output.writeAll Draft.empty ts = .ok ⟨ts.reverse⟩ := by
  rw [Draft.writeAll, Draft.empty, List.append_nil]

namespace Sink

/-- An empty piece always fits. -/
theorem write_nil (s : Sink) : s.write [] = .ok s := by
  simp [write]

theorem write_append (s : Sink) (a b : List UInt8) :
    s.write (a ++ b) = s.write a >>= (·.write b) := by
  by_cases ha : a.length ≤ s.room
  · have hwrite : s.write a = .ok ⟨s.room - a.length, s.held ++ a⟩ := if_pos ha
    rw [hwrite]
    show _ = Sink.write _ b
    by_cases hb : b.length ≤ s.room - a.length
    · have hboth : a.length + b.length ≤ s.room := by omega
      simp [write, hb, hboth, Nat.sub_add_eq]
    · have hboth : ¬ a.length + b.length ≤ s.room := by omega
      simp [write, hb, hboth, List.take_append, List.take_of_length_le ha]
  · -- the room ends within the first piece, so nothing of the second one is written
    have hwrite : s.write a = .error ⟨0, s.held ++ a.take s.room⟩ := if_neg ha
    have hboth : ¬ (a ++ b).length ≤ s.room := by
      rw [List.length_append]
      omega
    have htake : (a ++ b).take s.room = a.take s.room :=
      List.take_append_of_le_length (Nat.le_of_not_le ha)
    rw [hwrite, write, if_neg hboth, htake]
    rfl

/-- Writing texts one by one ends as writing them at once, also where the sink is full. -/
theorem writeAll_eq_write (s : Sink) (ts : List Text) :
    Output.writeAll s ts = s.write (Text.utf8 ts.flatten) := by
  induction ts generalizing s with
  | nil => exact (write_nil s).symm
  | cons t ts ih =>
    rw [Output.writeAll, List.flatten_cons, Text.utf8_append, write_append]
    exact bind_congr fun s => ih s

end Sink

/-- The outcome of writing a text into a sink that has room for `limit` bytes: it fails if and only if
the text is longer, the sink then has as much of the text as fits, and else the whole text. -/
structure Truncated (limit : Nat) (text : Text) (outcome : Except Sink Sink) : Prop where
  fails : (∃ s, outcome = .error s) ↔ limit < text.utf8.length
  part : ∀ s, outcome = .error s → s.held = text.utf8.take limit
  whole : ∀ s, outcome = .ok s → s.held = text.utf8

theorem truncated_write (limit : Nat) (text : Text) :
    Truncated limit text ((Sink.empty limit).write text.utf8) := by
  by_cases h : text.utf8.length ≤ limit
  · have hwrite : (Sink.empty limit).write text.utf8 = .ok ⟨limit - text.utf8.length, text.utf8⟩ :=
      if_pos h
    rw [hwrite]
    refine ⟨⟨?_, fun hlt => absurd h (Nat.not_le.mpr hlt)⟩, ?_, ?_⟩
    · rintro ⟨s, ⟨⟩⟩
    · rintro s ⟨⟩
    · rintro s ⟨⟩
      rfl
  · have hwrite : (Sink.empty limit).write text.utf8 = .error ⟨0, text.utf8.take limit⟩ := if_neg h
    rw [hwrite]
    refine ⟨⟨fun _ => Nat.lt_of_not_le h, fun _ => ⟨_, rfl⟩⟩, ?_, ?_⟩
    · rintro s ⟨⟩
      rfl
    · rintro s ⟨⟩

end ImpC
