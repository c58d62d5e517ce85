import MsProjects.Infra.Program

/-!
# 交差点

`kern/synchprobs/problems.c` の `gostraight`、`turnleft`、`turnright`。
-/

namespace Os161

open Infra

/-- 交差点の semaphore。 -/
inductive StopSem where
  | allow3sem | stoplightMenuSemaphore
  deriving DecidableEq, Repr

/-- driver の関数の呼び出し。 -/
inductive Drive where
  | inQuadrant (q : Fin 4)
  | leaveIntersection
  deriving DecidableEq, Repr

abbrev CarInstr := Instr (Fin 4) StopSem Drive

def gostraight (direction : Fin 4) : List CarInstr :=
  [.p .allow3sem, .acquire direction, .event (.inQuadrant direction),
    .acquire (direction + 3), .event (.inQuadrant (direction + 3)), .release direction,
    .event .leaveIntersection, .release (direction + 3),
    .v .allow3sem, .v .stoplightMenuSemaphore]

def turnleft (direction : Fin 4) : List CarInstr :=
  [.p .allow3sem, .acquire direction, .event (.inQuadrant direction),
    .acquire (direction + 3), .event (.inQuadrant (direction + 3)), .release direction,
    .acquire (direction + 2), .event (.inQuadrant (direction + 2)), .release (direction + 3),
    .event .leaveIntersection, .release (direction + 2),
    .v .allow3sem, .v .stoplightMenuSemaphore]

def turnright (direction : Fin 4) : List CarInstr :=
  [.p .allow3sem, .acquire direction, .event (.inQuadrant direction),
    .event .leaveIntersection, .release direction,
    .v .allow3sem, .v .stoplightMenuSemaphore]

inductive Turn where
  | gostraight | turnleft | turnright
  deriving DecidableEq, Repr

/-- 車。 -/
structure Car where
  turn : Turn
  direction : Fin 4

namespace Car

/-- 車の thread が走らせる関数。 -/
def program (car : Car) : List CarInstr :=
  match car.turn with
  | .gostraight => Os161.gostraight car.direction
  | .turnleft => Os161.turnleft car.direction
  | .turnright => Os161.turnright car.direction

/-- 通る quadrant を順に並べたもの。 -/
def route (car : Car) : List (Fin 4) :=
  match car.turn with
  | .gostraight => [car.direction, car.direction + 3]
  | .turnleft => [car.direction, car.direction + 3, car.direction + 2]
  | .turnright => [car.direction]

end Car

/-- 交差点と、すべての車の残りの命令。 -/
abbrev Stoplight (T : Type*) := Machine T (Fin 4) StopSem Drive

namespace Stoplight

/-- `stoplight_init` の直後。 -/
def init {T : Type*} (cars : T → Car) : Stoplight T where
  owner _ := none
  count
    | .allow3sem => 3
    | .stoplightMenuSemaphore => 0
  rest t := (cars t).program

end Stoplight

end Os161
