import WordAsm.Proofs.SteadySources

/-!
Files whose bytes are put into a program. They are written as a line of hexadecimal literals, which
is read like any other line of data. Main statement: the bytes of the program are those of the file,
with a zero byte after them if the last word is not full.
-/
namespace WordAsm

namespace Word

theorem high_ofPair (high low : UInt8) : (ofPair high low >>> 8).toUInt8 = high := by
  have raised : (high.toUInt16 <<< 8 >>> 8).toUInt8 = high := by
    have bound := high.toNat_lt
    apply UInt8.toNat_inj.mp
    simp [Nat.shiftRight_eq_div_pow, Nat.shiftLeft_eq]
    omega
  have above : (low.toUInt16 >>> 8).toUInt8 = 0 := by
    have bound := low.toNat_lt
    apply UInt8.toNat_inj.mp
    simp [Nat.shiftRight_eq_div_pow]
    omega
  simp [ofPair, UInt16.shiftRight_or, raised, above]

theorem low_ofPair (high low : UInt8) : (ofPair high low).toUInt8 = low := by
  have below : (high.toUInt16 <<< 8).toUInt8 = 0 := by
    apply UInt8.toNat_inj.mp
    simp [Nat.shiftLeft_eq]
  simp [ofPair, below]

theorem toBytes_ofBytes (bytes : List UInt8) :
    toBytes (ofBytes bytes) = bytes ++ List.replicate (bytes.length % 2) 0 := by
  induction bytes using ofBytes.induct with
  | case1 => rfl
  | case2 high => simp [ofBytes, toBytes, high_ofPair, low_ofPair]
  | case3 high low rest ih =>
    have length : (high :: low :: rest).length % 2 = rest.length % 2 := by
      simp only [List.length_cons]
      omega
    have first : toBytes (ofBytes (high :: low :: rest)) =
        high :: low :: toBytes (ofBytes rest) := by
      simp [ofBytes, toBytes, high_ofPair, low_ofPair]
    rw [first, ih, length]
    rfl

end Word

/-- What a path in a file means: an absolute one itself, and another one from the directory of the
file on. -/
def Path.beside (file path : String) : String :=
  if isAbsolute path then path else join (parent file) path

def Text.inQuotes (s : String) : String := "\"" ++ s ++ "\""

def Text.IsQuotable (s : String) : Prop := ∀ c ∈ s.toList, c ≠ '"' ∧ c ≠ '\\' ∧ c ≠ '\n'

instance (s : String) : Decidable (Text.IsQuotable s) :=
  inferInstanceAs (Decidable (∀ c ∈ s.toList, c ≠ '"' ∧ c ≠ '\\' ∧ c ≠ '\n'))

theorem Text.toList_inQuotes (s : String) : (inQuotes s).toList = '"' :: (s.toList ++ ['"']) := by
  simp [inQuotes, String.toList_append]

namespace Tokenizer

open Text (IsQuotable inQuotes)

theorem quoted_within {cs : List Char} (plain : ∀ c ∈ cs, c ≠ '"' ∧ c ≠ '\\' ∧ c ≠ '\n') :
    (Mode.quoted false).within (cs ++ ['"']) = true ∧
      (cs ++ ['"']).foldl Mode.next (.quoted false) = .plain := by
  induction cs with
  | nil => exact ⟨rfl, rfl⟩
  | cons c cs ih =>
    obtain ⟨⟨unquoted, unescaped, -⟩, later⟩ := List.forall_mem_cons.1 plain
    have next : (Mode.quoted false).next c = .quoted false := by
      simp [Mode.next, unquoted, unescaped]
    rw [List.cons_append, Mode.within, List.foldl_cons, next]
    exact ih later

theorem isToken_inQuotes {name : String} (plain : IsQuotable name) :
    IsToken (inQuotes name).toList := by
  obtain ⟨inside, ended⟩ := quoted_within plain
  have token := @isToken_quoted [] name.toList (fun filled => absurd rfl filled) inside ended
    fun member => (plain _ member).2.2 rfl
  rwa [Text.toList_inQuotes]

theorem tokenize_directive {directive name : String} (solid : IsSolid directive.toList)
    (plain : IsQuotable name) (file : String) :
    tokenize file (directive ++ " " ++ inQuotes name) =
      ⟨[⟨[directive, inQuotes name], "", [], file, 1⟩], none⟩ := by
  have writes := @Writes.statement directive solid.isToken [inQuotes name] (by simp)
    (by simpa using isToken_inQuotes plain) _ Scan.isBreak_newline 0 0
  apply @Writes.tokenize_unended [[directive, inQuotes name]]
  simpa [String.toList_append] using writes

end Tokenizer

namespace Include

open Text (IsQuotable inQuotes)

variable {o : Options} {line : Line} {name : String}

theorem unquoted {cs : List Char} (plain : ∀ c ∈ cs, c ≠ '"') :
    ((('"' :: (cs ++ ['"'])).dropWhile (· == '"')).reverse.dropWhile (· == '"')).reverse = cs := by
  have kept (ds : List Char) (plain : ∀ c ∈ ds, c ≠ '"') : ds.dropWhile (· == '"') = ds := by
    cases ds with
    | nil => rfl
    | cons d ds => simp [plain d]
  cases cs with
  | nil => rfl
  | cons c cs =>
    have front : ('"' :: (c :: cs ++ ['"'])).dropWhile (· == '"') = c :: cs ++ ['"'] := by
      simp [plain c]
    rw [front, List.reverse_append, List.reverse_singleton, List.singleton_append,
      List.dropWhile_cons_of_pos (by decide),
      kept _ fun d member => plain d (List.mem_reverse.1 member), List.reverse_reverse]

theorem candidates_inQuotes (plain : IsQuotable name) :
    candidates o line (inQuotes name) = .ok [Path.beside line.file name] := by
  have stripped := unquoted fun c member => (plain c member).1
  obtain ⟨d, ds, chars⟩ : ∃ d ds, name.toList ++ ['"'] = d :: ds := by
    cases name.toList with
    | nil => exact ⟨_, _, rfl⟩
    | cons c cs => exact ⟨_, _, rfl⟩
  rw [chars] at stripped
  unfold candidates
  rw [Text.toList_inQuotes, chars]
  simp only [stripped, String.ofList_toList]
  rfl

theorem find_inQuotes {directive : String} (tokens : line.tokens = [directive, inQuotes name])
    (plain : IsQuotable name) {bytes : List UInt8}
    (read : o.files.read (Path.beside line.file name) = .ok bytes) (w : Work) :
    find o w line = .ok (w, some (Path.beside line.file name, bytes)) := by
  have operand : line.operand = .ok (inQuotes name) := by rw [Line.operand, tokens]
  have first : firstOf o.files [Path.beside line.file name] =
      .ok (some (Path.beside line.file name, bytes)) := by rw [firstOf, read]
  simp only [find, operand, candidates_inQuotes plain, bind, Except.bind, first]
  rfl

end Include

theorem includeBytes_inQuotes {o : Options} {line : Line} {directive name : String}
    (tokens : line.tokens = [directive, Text.inQuotes name]) (plain : Text.IsQuotable name)
    {bytes : List UInt8} (read : o.files.read (Path.beside line.file name) = .ok bytes) (w : Work) :
    ∃ st, Directive.includeBytes o w line = .ok { w with statements := st :: w.statements } ∧
      st.Gives o.optimize (Word.ofBytes bytes) := by
  obtain ⟨-, -, steady⟩ := Entry.isSteady_literals (Word.ofBytes bytes) o.optimize
  obtain ⟨st, data, gives⟩ := steady w.symbols (Include.dataLine line bytes) rfl
  have added : w.add (Include.dataLine line bytes) =
      .ok { w with statements := st :: w.statements } := by
    rw [Work.add, data]
    rfl
  refine ⟨st, ?_, gives⟩
  simp only [Directive.includeBytes, Include.find_inQuotes tokens plain read, bind, Except.bind,
    added]

namespace Preprocess

open Text (IsQuotable inQuotes)

theorem step_incbin {o : Options} {file global name : String} {number : Nat}
    {rest : List Line} {last : Option Line} {bytes : List UInt8} (plain : IsQuotable name)
    (read : o.files.read (Path.beside file name) = .ok bytes) (w : Work) :
    ∃ st, step o ⟨w, [.flat file (⟨[".incbin", inQuotes name], "", [], file, number⟩ :: rest)
        global last]⟩ = .more ⟨{ w with statements := st :: w.statements }, [.flat file rest global
          (some ⟨[".incbin", inQuotes name], global, [], file, number⟩)]⟩ ∧
      st.Gives o.optimize (Word.ofBytes bytes) := by
  have directive : Token.directive? ".incbin" = some "incbin" := by decide +kernel
  obtain ⟨st, included, gives⟩ := @includeBytes_inQuotes o
    ⟨[".incbin", inQuotes name], global, [], file, number⟩ ".incbin" name rfl plain bytes read w
  refine ⟨st, step_handled ?_ ?_, gives⟩
  · simp only [canonical, directive]
    rfl
  · have first : Line.first ⟨[".incbin", inQuotes name], global, [], file, number⟩ = ".incbin" :=
      rfl
    simp only [Reader.handle, first, directive, Directive.apply, included]
    rfl

end Preprocess

/-- A source of one line that includes a file assembles, and its program is the file: its words are
those of the bytes, and its bytes the bytes, with a zero after an odd number of them. -/
theorem included_bytes_arrive (o : Options) (file name : String) (bytes : List UInt8)
    (plain : Text.IsQuotable name) (read : o.files.read (Path.beside file name) = .ok bytes) :
    ∃ enough ≤ 3, ∀ limit ≥ enough, ∃ program,
      (assemble { o with lineLimit := limit } file (".incbin \"" ++ name ++ "\"")).outcome =
        .ok program ∧
      program.words = Word.ofBytes bytes ∧
      program.bytes = bytes ++ List.replicate (bytes.length % 2) 0 := by
  have source : ".incbin \"" ++ name ++ "\"" = ".incbin" ++ " " ++ Text.inQuotes name := by
    rw [Text.inQuotes, String.append_assoc, String.append_assoc]
    rfl
  have start : Preprocess.start file (".incbin \"" ++ name ++ "\"") =
      ⟨{}, [.flat file [⟨[".incbin", Text.inQuotes name], "", [], file, 1⟩] "" none]⟩ := by
    rw [source, Preprocess.start, Reader.ofSource,
      Tokenizer.tokenize_directive ⟨by decide, by decide, by decide, by decide⟩ plain]
    rfl
  refine ⟨3, Nat.le_refl 3, ?_⟩
  intro limit enough
  obtain ⟨n, rfl⟩ := Nat.exists_eq_add_of_le' enough
  obtain ⟨st, stepped, gives⟩ :=
    @Preprocess.step_incbin { o with lineLimit := n + 3 } file "" name 1 [] none bytes plain read {}
  have finished : preprocess { o with lineLimit := n + 3 } file (".incbin \"" ++ name ++ "\"") =
      ({ statements := [st] }, none) := by
    rw [preprocess, start, Preprocess.run, stepped]
    exact Preprocess.run_end ..
  obtain ⟨program, assembled, words⟩ := assemble_gives finished (.cons gives .nil)
  have whole : program.words = Word.ofBytes bytes := by simpa using words
  refine ⟨program, assembled, whole, ?_⟩
  rw [Program.bytes, whole, Word.toBytes_ofBytes]

-- An odd number of bytes, and a name that would be cut at the semicolon without its quotes.
theorem included_bytes_arrive_odd :
    let missing (path : String) : FileFault := ⟨"open", path, .doesNotExist⟩
    let files : FileStore :=
      ⟨fun path => if path = "/lib/a b;" then .ok [1, 2, 3] else .error (missing path)⟩
    let o : Options := { optimize := false, maxPasses := 1, files }
    Text.IsQuotable "/lib/a b;" ∧
      o.files.read (Path.beside "main.dasm" "/lib/a b;") = .ok [1, 2, 3] ∧
      ∃ program, (assemble o "main.dasm" ".incbin \"/lib/a b;\"").outcome = .ok program ∧
        program.words = [0x0102, 0x0300] ∧ program.bytes = [1, 2, 3, 0] := by
  intro missing files o
  have plain : Text.IsQuotable "/lib/a b;" := by decide
  have read : o.files.read (Path.beside "main.dasm" "/lib/a b;") = .ok [1, 2, 3] := rfl
  have enough : 3 ≤ o.lineLimit := by decide +kernel
  obtain ⟨_, few, arrive⟩ :=
    included_bytes_arrive o "main.dasm" "/lib/a b;" [1, 2, 3] plain read
  exact ⟨plain, read, arrive o.lineLimit (Nat.le_trans few enough)⟩

end WordAsm
