import BlobCensus.Report
import BlobCensus.Proofs.Closure.Reachability
import BlobCensus.Proofs.Json.Rendering
import BlobCensus.Proofs.Inspection
import BlobCensus.Proofs.Text.Utf8

/-!
# Reports read back

The documents of a report tell all that was reported: whoever reads JSON gets the graph or the ranking
back from them, names, lists and order included. A compact document has no line end of its own, so a
report of several is told apart by its lines.
-/
namespace BlobCensus

namespace JsonReader

def Value.text? : Value → Option String
  | .text value => some value
  | _ => none

def Value.texts? : Value → Option (List String)
  | .list items => items.mapM Value.text?
  | _ => none

/-- A whole number that 64 bits hold. -/
def Number.count? (n : Number) : Option Nat :=
  if n.negative = false ∧ n.fraction = 0 ∧ n.exponent = 0 ∧ n.digits < 2 ^ 64 then some n.digits
  else none

def record? : String × Value → Option BlobRecord
  | (name, .object fields) => do
    let dependencies ← (← fields.lookup "dependencies").texts?
    let tags ← (← fields.lookup "architectures").texts?
    let architectures ← tags.mapM Architecture.ofTag?
    return ⟨name, dependencies, architectures.foldl Widths.insert {}⟩
  | _ => none

def use? : Value → Option (String × Nat)
  | .list [.text library, .number n] => n.count?.map (library, ·)
  | _ => none

def report? : Value → Option Record
  | .object fields => (fields.mapM record?).map fun records => .graph ⟨records⟩
  | .list items => (items.mapM use?).map .ranking
  | _ => none

theorem mapM_map_eq_some {α β : Type} {read : β → Option α} {write : α → β} {values : List α}
    (h : ∀ value ∈ values, read (write value) = some value) :
    (values.map write).mapM read = some values := by
  induction values with
  | nil => rfl
  | cons value rest ih =>
    obtain ⟨hvalue, hrest⟩ := List.forall_mem_cons.mp h
    simp [hvalue, ih hrest]

theorem texts?_map (texts : List String) : (Value.list (texts.map .text)).texts? = some texts :=
  mapM_map_eq_some fun _ _ => rfl

theorem count?_of_lt {n : ℕ} (h : n < 2 ^ 64) : Number.count? { digits := n } = some n := by
  simp only [Number.count?, h, and_self, if_true]

end JsonReader

namespace Widths

theorem mapM_ofTag? (w : Widths) :
    (w.toList.map Architecture.tag).mapM Architecture.ofTag? = some w.toList := by
  obtain ⟨_ | _, _ | _, _ | _⟩ := w <;> decide

theorem foldl_insert_toList (w : Widths) : w.toList.foldl insert {} = w := by
  obtain ⟨_ | _, _ | _, _ | _⟩ := w <;> rfl

end Widths

namespace Record

open JsonReader

/-- The document of a graph gives each name once, and the counts of a ranking fit in 64 bits. A path has
no document. -/
def Readable : Record → Prop
  | .graph g => g.names.Nodup
  | .ranking r => ∀ e ∈ r, e.2 < 2 ^ 64
  | .path _ => False

instance : DecidablePred Readable
  | .graph g => inferInstanceAs (Decidable g.names.Nodup)
  | .ranking r => inferInstanceAs (Decidable (∀ e ∈ r, e.2 < 2 ^ 64))
  | .path _ => inferInstanceAs (Decidable False)

def read? (text : String) : Option Record := (JsonReader.read text).bind report?

example : read? " \x7b \"a\\u00e9\" : \x7b\"architectures\": [\"64\"], \"dependencies\":[]\x7d\x7d\n" =
    some (.graph ⟨[⟨"aé", [], { has64 := true }⟩]⟩) := by decide +kernel

theorem record?_document (r : BlobRecord) :
    record? (r.name, ofJson (.object
      [("dependencies", .list (r.dependencies.map .text)),
       ("architectures", .list (r.widths.toList.map fun a => .text a.tag))])) = some r := by
  have hfields : ofJson (.object
      [("dependencies", .list (r.dependencies.map .text)),
       ("architectures", .list (r.widths.toList.map fun a => .text a.tag))]) =
      .object [("dependencies", .list (r.dependencies.map .text)),
        ("architectures", .list ((r.widths.toList.map Architecture.tag).map .text))] := by
    simp [ofJson, ofFields, ofItems_eq]
  have hdependencies : List.lookup "dependencies"
      [("dependencies", Value.list (r.dependencies.map .text)),
       ("architectures", .list ((r.widths.toList.map Architecture.tag).map .text))] =
      some (.list (r.dependencies.map .text)) := rfl
  have harchitectures : List.lookup "architectures"
      [("dependencies", Value.list (r.dependencies.map .text)),
       ("architectures", .list ((r.widths.toList.map Architecture.tag).map .text))] =
      some (.list ((r.widths.toList.map Architecture.tag).map .text)) := rfl
  simp only [hfields, record?, hdependencies, harchitectures, texts?_map, Option.bind_eq_bind,
    Option.bind_some, Widths.mapM_ofTag?, Widths.foldl_insert_toList]
  rfl

theorem report?_graph (g : Graph) : report? (ofJson g.toJson) = some (.graph g) := by
  rw [Graph.toJson, ofJson, ofFields_eq, List.map_map]
  simp only [report?]
  rw [Function.comp_def, mapM_map_eq_some fun r _ => record?_document r]
  rfl

theorem report?_ranking {r : List (String × ℕ)} (h : ∀ e ∈ r, e.2 < 2 ^ 64) :
    report? (ofJson (Usage.toJson r)) = some (.ranking r) := by
  rw [Usage.toJson, ofJson, ofItems_eq, List.map_map]
  simp only [report?]
  rw [mapM_map_eq_some fun e he => ?_]
  · rfl
  · simp only [Function.comp, ofJson, ofItems, use?, count?_of_lt (h e he), Option.map_some]

theorem wellKeyed_graph {g : Graph} (h : g.names.Nodup) : WellKeyed g.toJson := by
  refine ⟨?_, wellKeyedFields_iff.mpr (List.forall_mem_map.mpr fun r _ => ⟨?_, ?_, ?_, trivial⟩)⟩
  · simpa [Function.comp_def, Graph.names] using h
  · simp
  · exact wellKeyed_texts r.dependencies id
  · exact wellKeyed_texts r.widths.toList Architecture.tag

theorem wellKeyed_ranking (r : List (String × ℕ)) : WellKeyed (Usage.toJson r) :=
  wellKeyedItems_iff.mpr (List.forall_mem_map.mpr fun _ _ => ⟨trivial, trivial, trivial⟩)

def text (layout : Json.Layout) (record : Record) : String :=
  (record.printed layout).1.getD "" ++ (record.printed layout).2

/-- A record that has a document prints it and ends the line. -/
theorem exists_document {record : Record} (readable : record.Readable) (layout : Json.Layout) :
    ∃ document : String, record.printed layout = (some document, "\n") ∧
      read? document = some record ∧ read? (document ++ "\n") = some record ∧
      (layout = .compact → '\n' ∉ document.toList) := by
  obtain ⟨value, hprinted, keyed, hreport⟩ : ∃ value : Json,
      record.printed layout = (some (value.render layout), "\n") ∧ WellKeyed value ∧
      report? (ofJson value) = some record := by
    cases record with
    | graph g => exact ⟨_, rfl, wellKeyed_graph readable, report?_graph g⟩
    | ranking r => exact ⟨_, rfl, wellKeyed_ranking r, report?_ranking readable⟩
    | path p => exact readable.elim
  have hbare := read_render layout keyed "" (by simp)
  have hended := read_render layout keyed "\n" (by simp [isBlank])
  rw [String.append_empty] at hbare
  refine ⟨value.render layout, hprinted, ?_, ?_, ?_⟩
  · rw [read?, hbare, Option.bind_some, hreport]
  · rw [read?, hended, Option.bind_some, hreport]
  · rintro rfl
    rw [Json.render, String.toList_ofList]
    exact notMem_renderAt value 0

/-- Compact records are printed on lines of their own. -/
theorem exists_lines {records : List Record} (readable : ∀ record ∈ records, record.Readable) :
    ∃ lines : List (List Char),
      (records.flatMap fun record => Utf8.encode (record.text .compact)) =
        Utf8.encode (String.ofList (lines.flatMap fun line => line ++ ['\n'])) ∧
      (∀ line ∈ lines, '\n' ∉ line) ∧
      lines.mapM (fun line => read? (String.ofList line)) = some records := by
  induction records with
  | nil => exact ⟨[], rfl, by simp, rfl⟩
  | cons record records ih =>
    obtain ⟨hrecord, hrecords⟩ := List.forall_mem_cons.mp readable
    obtain ⟨document, hprinted, hread, -, hline⟩ := exists_document hrecord .compact
    obtain ⟨lines, htext, hone, hlines⟩ := ih hrecords
    have hdocument : record.text .compact = String.ofList (document.toList ++ ['\n']) := by
      rw [text, hprinted, Option.getD_some, String.ofList_append, String.ofList_toList]
    refine ⟨document.toList :: lines, ?_, List.forall_mem_cons.mpr ⟨hline rfl, hone⟩, ?_⟩
    · rw [List.flatMap_cons, List.flatMap_cons, htext, hdocument, ← Utf8.encode_append,
        ← String.ofList_append]
    · simp [hread, hlines]

end Record

namespace Sink

variable {sink rest : Sink} {bytes : List UInt8}

/-- The sink takes whatever comes. -/
def IsOpen (sink : Sink) : Prop := sink.room = none ∧ sink.badFlush = false

def push (sink : Sink) (bytes : List UInt8) : Sink := { sink with kept := sink.kept ++ bytes }

theorem push_push (more : List UInt8) : (sink.push bytes).push more = sink.push (bytes ++ more) := by
  simp only [push, List.append_assoc]

theorem IsOpen.push (h : sink.IsOpen) : (sink.push bytes).IsOpen := h

theorem IsOpen.write (h : sink.IsOpen) : sink.write bytes = (.ok (), sink.push bytes) := by
  simp only [Sink.write, h.1, Sink.push]

theorem IsOpen.flush (h : sink.IsOpen) : sink.flush = .ok () := by
  simp [Sink.flush, h.2]

/-- A sink that does not fail keeps all the bytes. -/
theorem kept_of_write (h : sink.write bytes = (.ok (), rest)) : rest.kept = sink.kept ++ bytes := by
  cases hroom : sink.room with
  | none =>
    simp only [write, hroom, Prod.mk.injEq, true_and] at h
    rw [← h]
  | some room =>
    simp only [write, hroom] at h
    split_ifs at h with hfits
    · simp only [Prod.mk.injEq, true_and] at h
      rw [← h, List.take_of_length_le hfits]
    · cases h

end Sink

namespace Printer

variable {layout : Json.Layout} {record : Record} {records : List Record} {sink rest final : Sink}

theorem kept_of_writeDocument {document : Option String}
    (h : writeDocument document sink = (.ok (), rest)) :
    rest.kept = sink.kept ++ Utf8.encode (document.getD "") := by
  cases document with
  | none =>
    cases h
    simp [Utf8.encode]
  | some text =>
    cases hwrite : sink.write (Utf8.encode text) with
    | mk result written =>
      simp only [writeDocument, hwrite, Prod.mk.injEq] at h
      obtain ⟨hresult, rfl⟩ := h
      cases result with
      | error cause => cases hresult
      | ok _ => exact Sink.kept_of_write hwrite

theorem kept_of_writeLine {line : String} (h : writeLine line sink = (.ok (), rest)) :
    rest.kept = sink.kept ++ Utf8.encode line := by
  cases hwrite : sink.write (Utf8.encode line) with
  | mk result written =>
    simp only [writeLine, hwrite] at h
    cases result with
    | error cause => cases h
    | ok _ =>
      obtain rfl := (Prod.mk.inj h).2
      exact Sink.kept_of_write hwrite

/-- A record that is printed without failure is printed as a whole. -/
theorem kept_of_emit (h : emit layout record sink = (.ok (), final)) :
    final.kept = sink.kept ++ Utf8.encode (record.text layout) := by
  cases hdocument : writeDocument (record.printed layout).1 sink with
  | mk result rest =>
    simp only [emit, hdocument] at h
    cases result with
    | error reason => cases h
    | ok _ =>
      rw [kept_of_writeLine h, kept_of_writeDocument hdocument, List.append_assoc, Record.text,
        Utf8.encode_append]

theorem emit_of_isOpen (h : sink.IsOpen) :
    emit layout record sink = (.ok (), sink.push (Utf8.encode (record.text layout))) := by
  have hline : ∀ line, ∀ sink : Sink, sink.IsOpen →
      writeLine line sink = (.ok (), sink.push (Utf8.encode line)) := by
    intro line sink h
    simp only [writeLine, h.write, h.push.flush]
    rfl
  cases hdocument : (record.printed layout).1 with
  | none =>
    simp only [emit, hdocument, writeDocument, hline _ _ h, Record.text, Option.getD_none,
      String.empty_append]
  | some text =>
    simp only [emit, hdocument, writeDocument, h.write, Except.mapError, hline _ _ h.push, Record.text,
      Option.getD_some, Utf8.encode_append, Sink.push_push]

theorem emitAll_of_isOpen (h : sink.IsOpen) : (reporter layout).emitAll records sink =
    sink.push (records.flatMap fun record => Utf8.encode (record.text layout)) := by
  induction records generalizing sink with
  | nil => simp [Reporter.emitAll, Sink.push]
  | cons record records ih =>
    have hstep : (reporter layout).emitAll (record :: records) sink =
        (reporter layout).emitAll records (emit layout record sink).2 := rfl
    rw [hstep, emit_of_isOpen h, ih h.push, Sink.push_push, List.flatMap_cons]

end Printer

/-- The report of a graph that gives each name once, or of a ranking whose counts fit in 64 bits, is a
document and a line end, and the graph or ranking can be read back from it in either layout. Several
compact ones are read back from the lines of their report. -/
theorem reports_read_back :
    (∀ (layout : Json.Layout) (record : Record), record.Readable → ∃ document : String,
      (∀ sink final, Printer.emit layout record sink = (.ok (), final) →
        final.kept = sink.kept ++ Utf8.encode (document ++ "\n")) ∧
      (∀ sink : Sink, sink.IsOpen → (Printer.emit layout record sink).1 = .ok ()) ∧
      Utf8.decode? (Utf8.encode (document ++ "\n")) = some (document ++ "\n") ∧
      Record.read? document = some record ∧ Record.read? (document ++ "\n") = some record ∧
      (layout = .compact → '\n' ∉ document.toList)) ∧
    ∀ records : List Record, (∀ record ∈ records, record.Readable) → ∃ (text : String)
        (lines : List (List Char)),
      (∀ sink : Sink, sink.IsOpen →
        ((Printer.reporter .compact).emitAll records sink).kept = sink.kept ++ Utf8.encode text) ∧
      Utf8.decode? (Utf8.encode text) = some text ∧ text.toList.splitOn '\n' = lines ++ [[]] ∧
      lines.mapM (fun line => Record.read? (String.ofList line)) = some records := by
  refine ⟨fun layout record readable => ?_, fun records readable => ?_⟩
  · obtain ⟨document, hprinted, hbare, hended, hline⟩ := Record.exists_document readable layout
    have htext : record.text layout = document ++ "\n" := by
      rw [Record.text, hprinted, Option.getD_some]
    refine ⟨document, fun sink final h => ?_, fun sink h => ?_, Utf8.decode?_encode _, hbare, hended, hline⟩
    · rw [Printer.kept_of_emit h, htext]
    · rw [Printer.emit_of_isOpen h]
  · obtain ⟨lines, htext, hone, hread⟩ := Record.exists_lines readable
    refine ⟨String.ofList (lines.flatMap fun line => line ++ ['\n']), lines, fun sink h => ?_,
      Utf8.decode?_encode _, ?_, hread⟩
    · rw [Printer.emitAll_of_isOpen h, htext]
      rfl
    · rw [String.toList_ofList, Programs.splitOn_ended hone]

/-- Names and dependencies that are escaped, and the largest count, are read back. -/
theorem reports_read_back_escapes :
    let graph : Record := .graph
      ⟨[⟨"lib\"a\".so", ["b\\c\n", "\u0001", "é\u2028"], { has32 := true, has64 := true }⟩,
      ⟨"", [], {}⟩]⟩
    let ranking : Record := .ranking [("b\\c\n", 2 ^ 64 - 1), ("", 0)]
    graph.Readable ∧ ranking.Readable ∧
      (∃ document : String, Utf8.decode? (Utf8.encode (document ++ "\n")) = some (document ++ "\n") ∧
        Record.read? (document ++ "\n") = some graph) ∧
      ∃ (text : String) (lines : List (List Char)), text.toList.splitOn '\n' = lines ++ [[]] ∧
        lines.mapM (fun line => Record.read? (String.ofList line)) = some [graph, ranking] := by
  intro graph ranking
  have hgraph : graph.Readable := by decide
  have hranking : ranking.Readable := by decide
  obtain ⟨document, -, -, hdecode, -, hread, -⟩ := reports_read_back.1 .pretty graph hgraph
  obtain ⟨text, lines, -, -, hsplit, hlines⟩ := reports_read_back.2 [graph, ranking]
    (List.forall_mem_cons.mpr ⟨hgraph, List.forall_mem_singleton.mpr hranking⟩)
  exact ⟨hgraph, hranking, ⟨document, hdecode, hread⟩, text, lines, hsplit, hlines⟩

end BlobCensus
