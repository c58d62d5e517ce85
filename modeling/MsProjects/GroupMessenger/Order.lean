import Mathlib.Data.Int.Basic
import Mathlib.Data.List.DropRight

/-!
# GroupMessenger の順序付け

`OnSendClickListener` が送る message と、`GroupMessengerActivity.order` が届いた message を
`TreeMap` に入れて key-value の表を書き直すところ。
-/

namespace GroupMessenger

/-! ## 時刻 -/

/-- `java.sql.Timestamp` の欄。 -/
structure Timestamp where
  year : Nat
  month : Nat
  day : Nat
  hour : Nat
  minute : Nat
  second : Nat
  millis : Nat
  hour_lt : hour < 24
  minute_lt : minute < 60
  second_lt : second < 60
  millis_lt : millis < 1000
  deriving DecidableEq, Repr

/-- `Timestamp.toString()` が書く小数部。 -/
def fraction (millis : Nat) : List Nat :=
  let digits := [millis / 100, millis / 10 % 10, millis % 10].rdropWhile (· = 0)
  if digits = [] then [0] else digits

/-- 数字の並びを整数として読む。 -/
def readNumber (digits : List Nat) : Nat := digits.foldl (fun n d => 10 * n + d) 0

/-- `SimpleDateFormat` が読み取った欄。 -/
structure LocalTime where
  year : Nat
  month : Nat
  day : Nat
  hour : Nat
  minute : Nat
  second : Nat
  millis : Nat
  deriving DecidableEq, Repr

/-- 送られた文字列を `SimpleDateFormat("yyyy-MM-dd hh:mm:ss.SSS")` で読む。 -/
def parse (t : Timestamp) : LocalTime where
  year := t.year
  month := t.month
  day := t.day
  hour := if t.hour = 12 then 0 else t.hour
  minute := t.minute
  second := t.second
  millis := readNumber (fraction t.millis)

/-! ## 本文 -/

/-- `BufferedReader.readLine` が返すところまで。 -/
def readLine (text : List Char) : List Char := text.takeWhile fun c => c ≠ '\n' ∧ c ≠ '\r'

/-- `msg.split("\\|")[1]`。 -/
def secondField (line : List Char) : Option (List Char) :=
  ((line.splitOn '|').rdropWhile fun field => field = []).head?

/-- 本文から取り出される値。 -/
def wireValue (text : List Char) : Option (List Char) :=
  secondField ((readLine text).rdropWhile fun c => c ≤ ' ')

/-- 送られた message。 -/
structure Msg where
  time : Timestamp
  text : List Char
  deriving DecidableEq, Repr

/-! ## TreeMap -/

/-- `TreeMap` の木。 -/
inductive TreeMap (α β : Type*) where
  | nil
  | node (left : TreeMap α β) (key : α) (value : β) (right : TreeMap α β)

namespace TreeMap

variable {α β : Type*}

/-- `put` が葉に届くまでの比較。 -/
def insert (compare : α → α → Int) (k : α) (v : β) : TreeMap α β → TreeMap α β
  | nil => node nil k v nil
  | node l k' v' r =>
    if compare k k' < 0 then node (insert compare k v l) k' v' r
    else if 0 < compare k k' then node l k' v' (insert compare k v r)
    else node l k' v r

/-- `values()` と同じ順に並べた鍵と値。 -/
def entries : TreeMap α β → List (α × β)
  | nil => []
  | node l k v r => entries l ++ (k, v) :: entries r

end TreeMap

/-- `Timestamp.compareTo`。 -/
def compareTo (t t' : Int) : Int := if t < t' then -1 else if t = t' then 0 else 1

/-- `orderedMsgs` の比較。 -/
def compare (o1 o2 : Int) : Int := if compareTo o1 o2 ≠ 0 then compareTo o1 o2 else 1

/-! ## 受け手 -/

/-- 受け手の状態。 -/
structure Receiver where
  running : Bool
  orderedMsgs : TreeMap Int (List Char)
  table : Nat → Option (List Char)

/-- 何も届いていない受け手。 -/
def Receiver.initial : Receiver := { running := true, orderedMsgs := .nil, table := fun _ => none }

/-- `for` loop。 -/
def insertAll : Nat → List (List Char) → (Nat → Option (List Char)) → Nat → Option (List Char)
  | _, [], table => table
  | k, val :: vals, table => insertAll (k + 1) vals (Function.update table k (some val))

section

-- `rebalance` は `TreeMap.put` の最後の回転、`epoch` は端末の時間帯での `Date.getTime()`
variable (rebalance : TreeMap Int (List Char) → TreeMap Int (List Char)) (epoch : LocalTime → Int)

/-- `GroupMessengerActivity.order`。 -/
def order (r : Receiver) (m : Msg) : Option Receiver := do
  let value ← wireValue m.text
  let orderedMsgs := rebalance (r.orderedMsgs.insert compare (epoch (parse m.time)) value)
  return { r with
    orderedMsgs := orderedMsgs
    table := insertAll 0 (orderedMsgs.entries.map fun e => e.2) r.table }

def onProgressUpdate (r : Receiver) (m : Msg) : Receiver :=
  if r.running then (order rebalance epoch r m).getD { r with running := false } else r

/-- message が順に届いた後の受け手。 -/
def receive (msgs : List Msg) : Receiver :=
  msgs.foldl (onProgressUpdate rebalance epoch) Receiver.initial

end

end GroupMessenger
