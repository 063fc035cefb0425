import BlobCensus.Proofs.Report.ReadBack

/-!
# Sinks that fill up

A sink with limited room keeps the first bytes of a report, as many as there is room for, wherever that
cuts the report: inside a document, before the end of its line or between two records. A record is taken
if all bytes up to its end fit, and the byte at which it is cut tells how its printing fails.
-/
namespace BlobCensus

namespace Sink

variable {sink : Sink} {bytes more : List UInt8} {n : ℕ}

def after (sink : Sink) (bytes : List UInt8) : Sink := (sink.write bytes).2

def Fits (sink : Sink) (bytes : List UInt8) : Prop := ∀ room ∈ sink.room, bytes.length ≤ room

instance : Decidable (sink.Fits bytes) := inferInstanceAs (Decidable (∀ _ ∈ _, _))

theorem fits_iff_of_room (h : sink.room = some n) : sink.Fits bytes ↔ bytes.length ≤ n := by
  simp [Fits, h]

theorem fits_of_unlimited (h : sink.room = none) (bytes : List UInt8) : sink.Fits bytes := by
  simp [Fits, h]

theorem write_eq (sink : Sink) (bytes : List UInt8) : sink.write bytes =
    (if sink.Fits bytes then .ok () else .error (.refused "writer full"), sink.after bytes) := by
  cases hroom : sink.room with
  | none => simp [after, write, Fits, hroom]
  | some room => by_cases h : bytes.length ≤ room <;> simp [after, write, Fits, hroom, h]

theorem after_of_room (h : sink.room = some n) : sink.after bytes =
    { sink with kept := sink.kept ++ bytes.take n, room := some (n - bytes.length) } := by
  by_cases hfits : bytes.length ≤ n <;> simp [after, write, h, hfits]

theorem after_of_unlimited (h : sink.room = none) : sink.after bytes = sink.push bytes := by
  simp [after, write, push, h]

theorem room_after (sink : Sink) (bytes : List UInt8) :
    (sink.after bytes).room = sink.room.map (· - bytes.length) := by
  cases hroom : sink.room with
  | none => rw [after_of_unlimited hroom, push, hroom]; rfl
  | some room => rw [after_of_room hroom]; rfl

theorem badFlush_after (sink : Sink) (bytes : List UInt8) :
    (sink.after bytes).badFlush = sink.badFlush := by
  cases hroom : sink.room with
  | none => rw [after_of_unlimited hroom, push]
  | some room => rw [after_of_room hroom]

theorem flush_after (sink : Sink) (bytes : List UInt8) : (sink.after bytes).flush = sink.flush := by
  rw [flush, flush, badFlush_after]

/-- Bytes may be written at once or in two parts, whether they fit or not. -/
theorem after_append (sink : Sink) (bytes more : List UInt8) :
    sink.after (bytes ++ more) = (sink.after bytes).after more := by
  cases hroom : sink.room with
  | none =>
    have hrest : (sink.push bytes).room = none := hroom
    rw [after_of_unlimited hroom, after_of_unlimited hroom, after_of_unlimited hrest, push_push]
  | some room =>
    have hrest : (sink.after bytes).room = some (room - bytes.length) := by
      rw [room_after, hroom]
      rfl
    rw [after_of_room hrest, after_of_room hroom, after_of_room hroom, List.take_append,
      List.append_assoc, List.length_append, Nat.sub_sub]

theorem after_nil (sink : Sink) : sink.after [] = sink := by
  obtain ⟨kept, room, badFlush⟩ := sink
  cases room <;> simp [after, write]

theorem fits_append : sink.Fits (bytes ++ more) ↔ sink.Fits bytes ∧ (sink.after bytes).Fits more := by
  cases hroom : sink.room with
  | none =>
    have hrest : (sink.after bytes).room = none := by rw [room_after, hroom]; rfl
    simp [fits_of_unlimited hroom, fits_of_unlimited hrest]
  | some room =>
    have hrest : (sink.after bytes).room = some (room - bytes.length) := by
      rw [room_after, hroom]
      rfl
    rw [fits_iff_of_room hroom, fits_iff_of_room hroom, fits_iff_of_room hrest, List.length_append]
    omega

/-- Nothing is kept of what follows bytes that did not fit. -/
theorem after_of_full (h : ¬ sink.Fits bytes) (more : List UInt8) :
    (sink.after bytes).after more = sink.after bytes := by
  cases hroom : sink.room with
  | none => exact absurd (fits_of_unlimited hroom bytes) h
  | some room =>
    have hrest : (sink.after bytes).room = some 0 := by
      have hlong := (fits_iff_of_room hroom).not.mp h
      rw [room_after, hroom, Option.map_some, Nat.sub_eq_zero_of_le (by omega)]
    rw [after_of_room hrest, List.take_zero, List.append_nil, Nat.zero_sub, ← hrest]

/-- Writes pieces one after the other, up to the first that does not fit. -/
def writeAll : List (List UInt8) → Sink → Except IoCause Unit × Sink
  | [], sink => (.ok (), sink)
  | piece :: rest, sink =>
    if sink.Fits piece then writeAll rest (sink.after piece) else sink.write piece

/-- It does not matter in which pieces bytes are written. -/
theorem writeAll_eq (pieces : List (List UInt8)) (sink : Sink) :
    writeAll pieces sink = sink.write pieces.flatten := by
  induction pieces generalizing sink with
  | nil => simp [writeAll, write_eq, after_nil, Fits]
  | cons piece rest ih =>
    rw [writeAll, List.flatten_cons, write_eq sink (piece ++ rest.flatten), after_append]
    by_cases h : sink.Fits piece
    · rw [if_pos h, ih, write_eq]
      simp [fits_append, h]
    · rw [if_neg h, write_eq, after_of_full h]
      simp [fits_append, h]

end Sink

namespace Record

/-- The bytes of a record's document. A path has none. -/
def documentBytes (layout : Json.Layout) (record : Record) : List UInt8 :=
  Utf8.encode ((record.printed layout).1.getD "")

def bytes (layout : Json.Layout) (record : Record) : List UInt8 := Utf8.encode (record.text layout)

variable {layout : Json.Layout} {record : Record}

theorem bytes_eq : record.bytes layout =
    record.documentBytes layout ++ Utf8.encode (record.printed layout).2 :=
  Utf8.encode_append _ _

/-- Every record ends a line. -/
theorem length_bytes_pos (layout : Json.Layout) (record : Record) :
    0 < (record.bytes layout).length := by
  have hend : 0 < (Utf8.encode "\n").length := by decide
  have hline : 0 < (Utf8.encode (record.printed layout).2).length := by
    cases record with
    | graph g => exact hend
    | ranking r => exact hend
    | path p =>
      change 0 < (Utf8.encode (p.display ++ "\n")).length
      rw [Utf8.encode_append, List.length_append]
      exact Nat.lt_add_left _ hend
  rw [bytes_eq, List.length_append]
  omega

end Record

namespace Printer

variable {layout : Json.Layout} {record : Record} {records : List Record} {sink : Sink} {n : ℕ}

theorem writeDocument_eq (document : Option String) (sink : Sink) : writeDocument document sink =
    (if sink.Fits (Utf8.encode (document.getD "")) then .ok ()
      else .error (.document (.refused "writer full")),
      sink.after (Utf8.encode (document.getD ""))) := by
  cases document with
  | none =>
    have hempty : Utf8.encode ((none : Option String).getD "") = [] := rfl
    rw [hempty, Sink.after_nil, if_pos (by simp [Sink.Fits])]
    rfl
  | some text =>
    simp only [writeDocument, Sink.write_eq, Option.getD_some]
    split <;> rfl

theorem writeLine_eq (line : String) (sink : Sink) : writeLine line sink =
    (if sink.Fits (Utf8.encode line) then sink.flush.mapError .write
      else .error (.write (.refused "writer full")), sink.after (Utf8.encode line)) := by
  by_cases h : sink.Fits (Utf8.encode line)
  · simp only [writeLine, Sink.write_eq, if_pos h, Sink.flush_after]
  · simp only [writeLine, Sink.write_eq, if_neg h]

/-- What comes of printing a record: its bytes are written as far as they fit. -/
theorem emit_eq (layout : Json.Layout) (record : Record) (sink : Sink) : emit layout record sink =
    (if sink.Fits (record.bytes layout) then sink.flush.mapError .write
      else if sink.Fits (record.documentBytes layout) then .error (.write (.refused "writer full"))
      else .error (.document (.refused "writer full")),
      sink.after (record.bytes layout)) := by
  have hdocument := writeDocument_eq (record.printed layout).1 sink
  change writeDocument _ sink = (if sink.Fits (record.documentBytes layout) then _ else _,
    sink.after (record.documentBytes layout)) at hdocument
  rw [Record.bytes_eq, Sink.after_append]
  by_cases h : sink.Fits (record.documentBytes layout)
  · rw [if_pos h] at hdocument
    simp only [emit, hdocument, writeLine_eq, Sink.flush_after, Sink.fits_append, h, true_and, if_true]
  · rw [if_neg h] at hdocument
    simp only [emit, hdocument, Sink.fits_append, h, false_and, if_false, Sink.after_of_full h]

theorem emit_eq_ok_iff (hopen : sink.badFlush = false) :
    (emit layout record sink).1 = .ok () ↔ sink.Fits (record.bytes layout) := by
  rw [emit_eq, Sink.flush, hopen]
  by_cases h : sink.Fits (record.bytes layout)
  · simp [h, Except.mapError]
  · simp only [h, if_false, iff_false]
    split <;> simp

theorem emit_of_badFlush (closed : sink.badFlush = true) (fits : sink.Fits (record.bytes layout)) :
    emit layout record sink =
      (.error (.write (.refused "flush refused")), sink.after (record.bytes layout)) := by
  rw [emit_eq, if_pos fits, Sink.flush, closed]
  rfl

theorem emit_of_long (long : ¬ sink.Fits (record.bytes layout)) : (emit layout record sink).1 =
    if sink.Fits (record.documentBytes layout) then .error (.write (.refused "writer full"))
    else .error (.document (.refused "writer full")) := by
  rw [emit_eq, if_neg long]

theorem emitAll_eq (layout : Json.Layout) (records : List Record) (sink : Sink) :
    (reporter layout).emitAll records sink = sink.after (records.flatMap (Record.bytes layout)) := by
  induction records generalizing sink with
  | nil => rw [List.flatMap_nil, Sink.after_nil]; rfl
  | cons record rest ih =>
    have hstep : (reporter layout).emitAll (record :: rest) sink =
        (reporter layout).emitAll rest (emit layout record sink).2 := rfl
    rw [hstep, ih, emit_eq, List.flatMap_cons, Sink.after_append]

theorem room_of_emitAll (room : sink.room = some n) (records : List Record) :
    ((reporter layout).emitAll records sink).room =
      some (n - (records.flatMap (Record.bytes layout)).length) := by
  rw [emitAll_eq, Sink.room_after, room]
  rfl

theorem badFlush_emitAll (records : List Record) (sink : Sink) :
    ((reporter layout).emitAll records sink).badFlush = sink.badFlush := by
  rw [emitAll_eq, Sink.badFlush_after]

/-- The place of the first byte for which there is no room: these bytes follow others, and the room is
for both. -/
structure IsCut (room start : ℕ) (bytes : List UInt8) (i : ℕ) : Prop where
  inside : i < bytes.length
  beyond : room ≤ start + i
  first : ∀ j < i, start + j < room

theorem isCut_sub {room start : ℕ} {bytes : List UInt8} (pos : 0 < bytes.length)
    (h : room < start + bytes.length) : IsCut room start bytes (room - start) where
  inside := by omega
  beyond := by omega
  first j hj := by omega

theorem kept_emitAll (room : sink.room = some n) (records : List Record) (badFlush : Bool) :
    ((reporter layout).emitAll records sink).kept =
      sink.kept ++ ((reporter layout).emitAll records { badFlush := badFlush }).kept.take n := by
  have hunlimited : ({ badFlush := badFlush } : Sink).room = none := rfl
  rw [emitAll_eq, emitAll_eq, Sink.after_of_room room, Sink.after_of_unlimited hunlimited]
  rfl

theorem emit_of_cut {start : ℕ} (room : sink.room = some (n - start))
    (long : n < start + (record.bytes layout).length) :
    ∃ i, IsCut n start (record.bytes layout) i ∧
      ((emit layout record sink).1 = .error (.document (.refused "writer full")) ↔
        i < (record.documentBytes layout).length) ∧
      ((emit layout record sink).1 = .error (.write (.refused "writer full")) ↔
        (record.documentBytes layout).length ≤ i) := by
  have hpos := Record.length_bytes_pos layout record
  have hlong : ¬ sink.Fits (record.bytes layout) := by
    rw [Sink.fits_iff_of_room room]
    omega
  refine ⟨n - start, isCut_sub hpos long, ?_⟩
  simp only [emit_of_long hlong, Sink.fits_iff_of_room room]
  by_cases h : (record.documentBytes layout).length ≤ n - start
  · simp [h]
  · simpa [h] using Nat.not_le.mp h

/-- A sink with room for so many bytes keeps that many of a report, as they come at a sink without limit.
If it can be flushed, it takes a record if everything up to the record's end fits. Otherwise a record that
fits is printed as a whole and fails at the flush. A record that does not fit fails with its document if
the first byte without room belongs to that, and else with the rest of its line. In which pieces a
document is handed over does not matter. -/
theorem prints_until_full (layout : Json.Layout) (sink : Sink) (n : ℕ) (room : sink.room = some n) :
    (∀ (records : List Record) (badFlush : Bool),
      ((reporter layout).emitAll records sink).kept =
        sink.kept ++ ((reporter layout).emitAll records { badFlush := badFlush }).kept.take n) ∧
    ∀ (before : List Record) (record : Record),
      let now := (reporter layout).emitAll before sink
      let start := (before.flatMap (Record.bytes layout)).length
      let length := ((before ++ [record]).flatMap (Record.bytes layout)).length
      (sink.badFlush = false → ((emit layout record now).1 = .ok () ↔ length ≤ n)) ∧
      (sink.badFlush = true → length ≤ n →
        (emit layout record now).1 = .error (.write (.refused "flush refused")) ∧
        (emit layout record now).2.kept = now.kept ++ record.bytes layout) ∧
      (n < length → ∃ i, IsCut n start (record.bytes layout) i ∧
        ((emit layout record now).1 = .error (.document (.refused "writer full")) ↔
          i < (record.documentBytes layout).length) ∧
        ((emit layout record now).1 = .error (.write (.refused "writer full")) ↔
          (record.documentBytes layout).length ≤ i)) ∧
      ∀ pieces : List (List UInt8), pieces.flatten = record.documentBytes layout →
        now.writeAll pieces = now.write (record.documentBytes layout) := by
  refine ⟨fun records badFlush => kept_emitAll room records badFlush, ?_⟩
  intro before record now start length
  have hroom : now.room = some (n - start) := room_of_emitAll room before
  have hflush : now.badFlush = sink.badFlush := badFlush_emitAll before sink
  have hsum : length = start + (record.bytes layout).length := by
    simp [length, start]
  have hfits : now.Fits (record.bytes layout) ↔ length ≤ n := by
    have hpos := Record.length_bytes_pos layout record
    rw [Sink.fits_iff_of_room hroom]
    omega
  clear_value now start length
  refine ⟨fun hopen => ?_, fun closed fits => ?_, fun long => emit_of_cut hroom (hsum ▸ long),
    fun pieces hpieces => ?_⟩
  · rw [emit_eq_ok_iff (hflush.trans hopen), hfits]
  · rw [emit_of_badFlush (hflush.trans closed) (hfits.mpr fits), Sink.after_of_room hroom,
      List.take_of_length_le]
    · exact ⟨rfl, rfl⟩
    · omega
  · rw [Sink.writeAll_eq, hpieces]

def strip : List Record := [.path (.ofString "lib/a.so")]

def label : Record := .ranking [("é", 1)]

theorem prints_until_full_cuts :
    ((reporter .compact).emitAll (strip ++ [label]) { room := some 13 }).kept =
      Utf8.encode "lib/a.so\n[[\"" ++ [0xC3] ∧
    (emit .compact label ((reporter .compact).emitAll strip { room := some 13 })).1 =
      .error (.document (.refused "writer full")) ∧
    (emit .compact label ((reporter .compact).emitAll strip { room := some 19 })).1 =
      .error (.write (.refused "writer full")) ∧
    (emit .compact label ((reporter .compact).emitAll strip { room := some 20 })).1 = .ok () ∧
    (emit .compact label ((reporter .compact).emitAll strip { room := some 20, badFlush := true })).1 =
      .error (.write (.refused "flush refused")) := by
  have hlength : ((strip ++ [label]).flatMap (Record.bytes .compact)).length = 20 := by decide +kernel
  have hstart : (strip.flatMap (Record.bytes .compact)).length = 9 := by decide +kernel
  have hdocument : (label.documentBytes .compact).length = 10 := by decide +kernel
  obtain ⟨hkept, hcut⟩ := prints_until_full .compact { room := some 13 } 13 rfl
  obtain ⟨-, -, hearly, -⟩ := hcut strip label
  obtain ⟨i, hi, hfails, -⟩ := hearly (by rw [hlength]; decide)
  obtain ⟨-, hlate⟩ := prints_until_full .compact { room := some 19 } 19 rfl
  obtain ⟨-, -, hend, -⟩ := hlate strip label
  obtain ⟨j, hj, -, hbreaks⟩ := hend (by rw [hlength]; decide)
  obtain ⟨-, hall⟩ := prints_until_full .compact { room := some 20 } 20 rfl
  obtain ⟨hok, -, -, -⟩ := hall strip label
  obtain ⟨-, hclosed⟩ := prints_until_full .compact { room := some 20, badFlush := true } 20 rfl
  obtain ⟨-, hwhole, -, -⟩ := hclosed strip label
  have hi' := hi.first
  have hj' := hj.beyond
  refine ⟨?_, hfails.mpr ?_, hbreaks.mpr ?_, (hok rfl).mpr ?_, (hwhole rfl ?_).1⟩
  · rw [hkept (strip ++ [label]) false]
    decide +kernel
  · rw [hdocument]
    by_contra hlong
    have hlast := hi' 5 (by omega)
    omega
  · omega
  · omega
  · omega

end Printer

end BlobCensus
