import Mathlib.Logic.Function.Basic

/-!
# 鯨の交尾

`kern/synchprobs/problems.c` の `male`、`female`、`matchmaker`。
-/

namespace Os161

/-- 鯨の種類。 -/
inductive Role where
  | male | female | matchmaker
  deriving DecidableEq, Repr

/-- 関数の中で種類ごとに違うところ。 -/
structure WhaleCode where
  /-- 自分の変数と条件変数。 -/
  own : Role
  /-- `if` が調べる二つの変数。 -/
  tests : Role × Role
  /-- signal を送る順に並べた二つの条件変数。 -/
  signals : Role × Role

def male : WhaleCode := ⟨.male, (.female, .matchmaker), (.female, .matchmaker)⟩

def female : WhaleCode := ⟨.female, (.male, .matchmaker), (.male, .matchmaker)⟩

def matchmaker : WhaleCode := ⟨.matchmaker, (.male, .female), (.female, .male)⟩

/-- thread が走らせる関数。 -/
def Role.code : Role → WhaleCode
  | .male => Os161.male
  | .female => Os161.female
  | .matchmaker => Os161.matchmaker

/-- thread が次に行うこと。 -/
inductive WhalePc where
  /-- `lock_acquire(lk)`。 -/
  | start
  /-- 変数を一つ増やし、ほかの二つを調べる。 -/
  | arrived
  /-- 一つ目の `cv_signal`。 -/
  | signalFirst
  /-- 二つ目の `cv_signal`。 -/
  | signalSecond
  /-- `cv_wait`。 -/
  | waiting
  /-- 条件変数で眠っている。 -/
  | asleep
  /-- 起こされて、lock を取り直す。 -/
  | woken
  /-- `…_end()` を呼び、変数を一つ減らす。 -/
  | ending
  /-- `lock_release(lk)`。 -/
  | releasing
  /-- `V(whalematingMenuSemaphore)`。 -/
  | leaving
  | done
  deriving DecidableEq, Repr

/-- 大域変数と、すべての thread。 -/
structure Whale (T : Type*) where
  /-- `lk` の持ち主。 -/
  owner : Option T
  /-- `noOfMales`、`noOfFemales`、`noOfMatchmakers`。 -/
  noOf : Role → Int
  /-- 条件変数で眠る thread。 -/
  cv : Role → List T
  /-- `whalematingMenuSemaphore` の数。 -/
  menu : Nat
  pc : T → WhalePc

namespace Whale

variable {T : Type*}

/-- `whalemating_init` の直後。 -/
def init : Whale T := ⟨none, fun _ => 0, fun _ => [], 0, fun _ => .start⟩

variable [DecidableEq T]

def setPc (s : Whale T) (t : T) (pc : WhalePc) : Whale T := { s with pc := Function.update s.pc t pc }

def cvSignal (s : Whale T) (r : Role) : Whale T :=
  match s.cv r with
  | [] => s
  | u :: rest => { s with cv := Function.update s.cv r rest }.setPc u .woken

/-- `cv_wait` の前半。 -/
def cvWait (s : Whale T) (t : T) (r : Role) : Whale T :=
  { s with owner := none, cv := Function.update s.cv r (s.cv r ++ [t]) }.setPc t .asleep

/-- 変数に足す。 -/
def addTo (s : Whale T) (r : Role) (n : Int) : Whale T :=
  { s with noOf := Function.update s.noOf r (s.noOf r + n) }

/-- `if` の条件。 -/
def othersPresent (s : Whale T) (code : WhaleCode) : Bool :=
  s.noOf code.tests.1 ≠ 0 && s.noOf code.tests.2 ≠ 0

/-- `t` の一 step。 -/
def advance (role : T → Role) (s : Whale T) (t : T) : Option (Whale T) :=
  let code := (role t).code
  match s.pc t with
  | .start => if s.owner = none then some ({ s with owner := some t }.setPc t .arrived) else none
  | .arrived =>
    let s := s.addTo code.own 1
    some (s.setPc t (if s.othersPresent code then .signalFirst else .waiting))
  | .signalFirst => some ((s.cvSignal code.signals.1).setPc t .signalSecond)
  | .signalSecond => some ((s.cvSignal code.signals.2).setPc t .ending)
  | .waiting => some (s.cvWait t code.own)
  | .asleep => none
  | .woken => if s.owner = none then some ({ s with owner := some t }.setPc t .ending) else none
  | .ending => some ((s.addTo code.own (-1)).setPc t .releasing)
  | .releasing => some ({ s with owner := none }.setPc t .leaving)
  | .leaving => some ({ s with menu := s.menu + 1 }.setPc t .done)
  | .done => none

end Whale

end Os161
