import MsProjects.Sql.Record

/-!
# ConditionEvaluator の hash join

表を key の剰余で bin の file に分ける `createBins`、bin ごとに hash map と突き合わせる `joinBins`、
結果を射影して書き出す `addToOutstream`。
-/

namespace Sql

/-- 表の名前。 -/
abbrev TableName := List (List Char)

/-- directory の中の file の名前。 -/
inductive FileName where
  /-- `T.dat`。 -/
  | table (t : TableName)
  /-- `T-i.dat`。 -/
  | bin (t : TableName) (i : Nat)
  deriving DecidableEq, Repr

/-- directory の中身。 -/
abbrev Directory := FileName → Option (List Line)

def bins : Nat := 25

def limit : Nat := 2000000

/-- bin ごとの `StringBuilder`。 -/
abbrev Buffers := Nat → List Line

def initTmap : Buffers := fun _ => []

/-- bin に一行を足す。 -/
def Buffers.append (sb : Buffers) (b : Nat) (s : Line) : Buffers :=
  Function.update sb b (sb b ++ [s])

def flushToDisk (sb : Buffers) (newtab : TableName) (swap : Directory) : Directory
  | .table t => swap (.table t)
  | .bin t i =>
    if t = newtab ∧ i < bins then some ((swap (.bin t i)).getD [] ++ sb i) else swap (.bin t i)

/-- data directory に file が無ければ swap directory のものを開く。 -/
def openFile (data swap : Directory) (f : FileName) : Option (List Line) :=
  (data f).orElse fun _ => swap f

/-- `Integer.parseInt(s.split("\\|")[cnt])`。 -/
def keyOf (cnt : Nat) (s : Line) : Option Int := (split s)[cnt]?.bind parseInt

/-- 添字 `key % BINS`。 -/
def binOf (key : Int) : Option Nat :=
  if 0 ≤ key.tmod bins then some (key.tmod bins).toNat else none

section

-- 表ごとの条件の判定 `BooleanEvaluator.calculateBoolean`。`none` は例外である
variable (accepts : Line → Option Bool)

/-- `createBins` の loop。 -/
def createBinsLoop (cnt : Nat) (tab : TableName) :
    List Line → Nat → Buffers → Directory → Buffers × Directory
  | [], _, sb, swap => (sb, swap)
  | s :: rest, lines, sb, swap =>
    match accepts s with
    | none => (sb, swap)
    | some false => createBinsLoop cnt tab rest lines sb swap
    | some true =>
      match (keyOf cnt s).bind binOf with
      | none => (sb, swap)
      | some b =>
        if lines + 1 > limit then
          createBinsLoop cnt tab rest 0 initTmap (flushToDisk (sb.append b s) tab swap)
        else createBinsLoop cnt tab rest (lines + 1) (sb.append b s) swap

def createBins (data : Directory) (cnt : Nat) (tab : TableName) (swap : Directory) : Directory :=
  match openFile data swap (.table tab) with
  | none => flushToDisk initTmap tab swap
  | some file =>
    let (sb, swap) := createBinsLoop accepts cnt tab file 0 initTmap swap
    flushToDisk sb tab swap

/-- `getInMemoryMap` の loop。 -/
def inMemoryLoop (cnt : Nat) : List Line → (Int → List Line) → Int → List Line
  | [], inMem => inMem
  | s :: rest, inMem =>
    match accepts s with
    | none => inMem
    | some false => inMemoryLoop cnt rest inMem
    | some true =>
      match keyOf cnt s with
      | none => inMem
      | some key => inMemoryLoop cnt rest (Function.update inMem key (inMem key ++ [s]))

def getInMemoryMap (data swap : Directory) (file : FileName) (cnt : Nat) : Int → List Line :=
  match openFile data swap file with
  | none => fun _ => []
  | some lines => inMemoryLoop accepts cnt lines fun _ => []

end

/-! ## 突き合わせ -/

/-- 結果の表に並ぶ一つの表の、`offset` の範囲と射影する列。 -/
structure Projected where
  lo : Nat
  hi : Nat
  off : List Nat
  deriving DecidableEq, Repr

/-- 一つの表の、射影した欄。 -/
def Projected.fields (p : Projected) (record : Line) : Option Line := do
  let temp1 ← copyOfRange (split record) p.lo p.hi
  p.off.foldlM (fun out i => do return out ++ display (← temp1[i]?) ++ ['|']) []

/-- 書き出す一行。 -/
def projectRecord (offsets : List Projected) (record : Line) : Option Line := do
  offsets.foldlM (fun out p => do return out ++ (← p.fields record)) []

def addToOutstream (offsets : List Projected) (record : Line) (key : Int) (sb : Buffers) :
    Option Buffers := do
  return sb.append (← binOf key) (← projectRecord offsets record)

/-- 書き出しの途中。 -/
structure Writer where
  sbArray : Buffers
  linecount : Nat
  swap : Directory

section

variable (offsets : List Projected) (newtab : TableName)

/-- `sb_array` を書き出して空にする。 -/
def Writer.flush (w : Writer) : Writer :=
  { sbArray := initTmap, linecount := 0, swap := flushToDisk w.sbArray newtab w.swap }

/-- 同じ key の行すべてと繋ぐ。 -/
def appendMatches (s : Line) (key : Int) : List Line → Writer → Writer × Bool
  | [], w => (w, true)
  | t :: ts, w =>
    match addToOutstream offsets (s ++ '|' :: t) key w.sbArray with
    | none => (w, false)
    | some sb =>
      appendMatches s key ts { w with sbArray := sb, linecount := w.linecount + 1 }

/-- `readlineNlookup` の loop。 -/
def lookupLoop (cnt : Nat) (inMem : Int → List Line) : List Line → Writer → Writer × Bool
  | [], w => (w, true)
  | s :: rest, w =>
    match keyOf cnt s with
    | none => (w, false)
    | some key =>
      match appendMatches offsets s key (inMem key) w with
      | (w, false) => (w, false)
      | (w, true) =>
        lookupLoop cnt inMem rest (if w.linecount > limit then w.flush newtab else w)

def readlineNlookup (data : Directory) (cnt : Nat) (inMem : Int → List Line) (file : FileName)
    (w : Writer) : Writer :=
  match openFile data w.swap file with
  | none => w
  | some lines =>
    match lookupLoop offsets newtab cnt inMem lines w with
    | (w, false) => w
    | (w, true) => w.flush newtab

def joinBins (accepts : Line → Option Bool) (data : Directory) (joinTab : TableName) (joinCnt : Nat)
    (breakBinsTab : TableName) (breakBinsCnt : Nat) (w : Writer) : Writer :=
  (List.range bins).foldl (fun w i =>
    readlineNlookup offsets newtab data breakBinsCnt
      (getInMemoryMap accepts data w.swap (.bin joinTab i) joinCnt) (.bin breakBinsTab i) w) w

end

/-- `outstreamCreator` の、二つの表を bin に分けて突き合わせるところ。 -/
def outstreamCreator (data : Directory) (breakBinsTab : TableName) (breakBinsCnt : Nat)
    (joinTab : TableName) (joinCnt : Nat) (offsets : List Projected) (swap : Directory) :
    Directory :=
  let swap := createBins (fun _ => some true) data breakBinsCnt breakBinsTab swap
  let swap := createBins (fun _ => some true) data joinCnt joinTab swap
  (joinBins offsets (breakBinsTab ++ joinTab) (fun _ => some true) data joinTab joinCnt
    breakBinsTab breakBinsCnt { sbArray := initTmap, linecount := 0, swap := swap }).swap

/-- 表の bin の file に残った行。 -/
def binRows (swap : Directory) (tab : TableName) : List Line :=
  (List.range bins).flatMap fun i => (swap (.bin tab i)).getD []

end Sql
