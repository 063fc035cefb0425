import BlobCensus.Inspection

/-!
# Printed lines read back

A program that prints the texts of a file, one on each line, tells them all and nothing else: they are
ASCII, so their bytes are read back as the characters they were, and no line end is in one of them.
-/
namespace BlobCensus

namespace PrintableRuns

def Printable (run : List UInt8) : Prop := ∀ byte ∈ run, isPrintable byte = true

theorem toNat_of_isPrintable {byte : UInt8} (h : isPrintable byte = true) :
    byte.toNat = 9 ∨ 32 ≤ byte.toNat ∧ byte.toNat ≤ 126 := by
  simpa [isPrintable, tab, UInt8.le_iff_toNat_le, ← UInt8.toNat_inj] using h

theorem printable_cut (byte : UInt8) {pieces : List (List UInt8)}
    (h : ∀ run ∈ pieces, Printable run) : ∀ run ∈ cut byte pieces, Printable run := by
  by_cases hbyte : isPrintable byte = true
  · cases pieces with
    | nil => simp [cut, hbyte, Printable]
    | cons first rest =>
      obtain ⟨hfirst, hrest⟩ := List.forall_mem_cons.mp h
      have hlonger : Printable (byte :: first) := List.forall_mem_cons.mpr ⟨hbyte, hfirst⟩
      simpa [cut, hbyte] using ⟨hlonger, hrest⟩
  · simpa [cut, hbyte, Printable] using h

theorem printable_pieces (data : List UInt8) : ∀ run ∈ pieces data, Printable run := by
  induction data with
  | nil => simp [pieces, Printable]
  | cons byte rest ih => exact printable_cut byte ih

theorem trimTabs_sublist (run : List UInt8) : (trimTabs run).Sublist run := by
  have hend := List.dropWhile_sublist (· == tab) (l := (run.dropWhile (· == tab)).reverse)
  have hfront := List.dropWhile_sublist (· == tab) (l := run)
  exact (List.reverse_sublist.mp (by simpa [trimTabs] using hend)).trans hfront

/-- The texts of data are what is written in some printable runs of bytes. -/
theorem exists_runs_texts (least : Nat) (data : List UInt8) :
    ∃ runs : List (List UInt8), texts least data = runs.map asciiText ∧ ∀ run ∈ runs, Printable run := by
  refine ⟨_, rfl, ?_⟩
  intro run hrun
  obtain ⟨whole, hwhole, rfl⟩ := List.mem_map.mp (List.mem_filter.mp hrun).1
  have hprintable := printable_pieces data whole (List.mem_filter.mp hwhole).1
  exact fun byte hbyte => hprintable byte ((trimTabs_sublist whole).subset hbyte)

end PrintableRuns

namespace Utf8

open PrintableRuns (asciiText)

variable {byte : UInt8} {bytes : List UInt8}

theorem toNat_ofNat_ascii (ascii : byte.toNat < 0x80) :
    (Char.ofNat byte.toNat).toNat = byte.toNat := by
  have hvalid : byte.toNat.isValidChar := .inl (by omega)
  unfold Char.ofNat
  rw [dif_pos hvalid]
  rfl

theorem utf8EncodeChar_ascii (ascii : byte.toNat < 0x80) :
    String.utf8EncodeChar (Char.ofNat byte.toNat) = [byte] := by
  have hvalue : (Char.ofNat byte.toNat).val.toNat = byte.toNat := toNat_ofNat_ascii ascii
  simp [String.utf8EncodeChar, hvalue]
  omega

theorem encode_asciiText (ascii : ∀ byte ∈ bytes, byte.toNat < 0x80) :
    encode (asciiText bytes) = bytes := by
  unfold encode asciiText
  rw [String.toList_ofList]
  induction bytes with
  | nil => rfl
  | cons byte rest ih =>
    obtain ⟨hbyte, hrest⟩ := List.forall_mem_cons.mp ascii
    rw [List.map_cons, List.flatMap_cons, utf8EncodeChar_ascii hbyte, ih hrest]
    rfl

theorem decode_ascii (ascii : ∀ byte ∈ bytes, byte.toNat < 0x80) :
    decode bytes = bytes.map fun byte => some (Char.ofNat byte.toNat) := by
  unfold decode
  induction bytes with
  | nil => rfl
  | cons byte rest ih =>
    obtain ⟨hbyte, hrest⟩ := List.forall_mem_cons.mp ascii
    have hstep : step none byte = ⟨[some (Char.ofNat byte.toNat)], none⟩ := by
      simp [step, start, hbyte]
    simp [decodeFrom, hstep, ih hrest]

theorem decodeLossy_ascii (ascii : ∀ byte ∈ bytes, byte.toNat < 0x80) :
    decodeLossy bytes = asciiText bytes := by
  unfold decodeLossy asciiText
  rw [decode_ascii ascii, List.map_map]
  rfl

end Utf8

namespace Programs

open PrintableRuns

theorem chomp_of_notMem {line : List Char} (h : '\r' ∉ line) : chomp line = line := by
  unfold chomp
  rw [if_neg]
  intro hlast
  exact h (List.mem_of_getLast? hlast)

theorem splitOn_ended {tokens : List (List Char)} (h : ∀ token ∈ tokens, '\n' ∉ token) :
    (tokens.flatMap fun token => token ++ ['\n']).splitOn '\n' = tokens ++ [[]] := by
  induction tokens with
  | nil => rfl
  | cons token rest ih =>
    obtain ⟨htoken, hrest⟩ := List.forall_mem_cons.mp h
    have hnone : ∀ c ∈ token, (c == '\n') = false := by
      intro c hc
      simpa using ne_of_mem_of_not_mem hc htoken
    rw [List.flatMap_cons, List.append_assoc, List.singleton_append, List.splitOn,
      List.splitOnP_append_cons_of_forall_mem hnone '\n' rfl, ← List.splitOn, ih hrest]
    rfl

/-- The lines of a text are what was ended by a line end, if there is no line end in any of it. -/
theorem lines_ended {tokens : List (List Char)}
    (h : ∀ token ∈ tokens, '\n' ∉ token ∧ '\r' ∉ token) :
    lines (String.ofList (tokens.flatMap fun token => token ++ ['\n'])) =
      tokens.map String.ofList := by
  have hsplit := splitOn_ended fun token htoken => (h token htoken).1
  have hchomp : tokens.map chomp = tokens := by
    rw [List.map_congr_left fun token htoken => chomp_of_notMem (h token htoken).2]
    exact List.map_id tokens
  unfold lines
  rw [String.toList_ofList, hsplit]
  simp [hchomp]

/-- The output of a program that prints these texts, one on each line. -/
def printed (texts : List String) : List UInt8 :=
  texts.flatMap fun text => Utf8.encode text ++ [0x0A]

theorem notMem_chars {run : List UInt8} (h : Printable run) {c : Char}
    (hc : isPrintable (.ofNat c.toNat) = false) : c ∉ run.map fun byte => Char.ofNat byte.toNat := by
  intro hmem
  obtain ⟨byte, hbyte, rfl⟩ := List.mem_map.mp hmem
  have hrange := toNat_of_isPrintable (h byte hbyte)
  rw [Utf8.toNat_ofNat_ascii (by omega), UInt8.ofNat_toNat, h byte hbyte] at hc
  cases hc

/-- Texts written in printable bytes are read back from the lines they are printed on. -/
theorem lines_printed {runs : List (List UInt8)} (h : ∀ run ∈ runs, Printable run) :
    lines (Utf8.decodeLossy (printed (runs.map asciiText))) = runs.map asciiText := by
  have hascii : ∀ run ∈ runs, ∀ byte ∈ run, byte.toNat < 0x80 := by
    intro run hrun byte hbyte
    have hrange := toNat_of_isPrintable (h run hrun byte hbyte)
    omega
  have hprinted : printed (runs.map asciiText) = runs.flatMap fun run => run ++ [0x0A] := by
    rw [printed, List.flatMap_map, List.flatMap_def, List.flatMap_def]
    congr 1
    apply List.map_congr_left
    intro run hrun
    rw [Utf8.encode_asciiText (hascii run hrun)]
  have houtput : ∀ byte ∈ runs.flatMap fun run => run ++ [0x0A], byte.toNat < 0x80 := by
    intro byte hbyte
    obtain ⟨run, hrun, hbyte⟩ := List.mem_flatMap.mp hbyte
    rcases List.mem_append.mp hbyte with hbyte | hbyte
    · exact hascii run hrun byte hbyte
    · simp [List.mem_singleton.mp hbyte]
  have htokens : ∀ token ∈ runs.map (·.map fun byte => Char.ofNat byte.toNat),
      '\n' ∉ token ∧ '\r' ∉ token := by
    intro token htoken
    obtain ⟨run, hrun, rfl⟩ := List.mem_map.mp htoken
    exact ⟨notMem_chars (h run hrun) rfl, notMem_chars (h run hrun) rfl⟩
  have hlines := lines_ended htokens
  rw [hprinted, Utf8.decodeLossy_ascii houtput, asciiText, List.map_flatMap]
  rw [List.flatMap_map, List.map_map] at hlines
  simp only [List.map_append]
  exact hlines

end Programs

end BlobCensus
