import Cimabue.Support.Bytes
import Cimabue.Support.StdStream

/-!
# Model — Console

The console thread of `cimabue-client/src/view/ConsoleView.cpp` (`do_console_thread`): the settings it
asks for, with their defaults, and the destinations and messages it reads, turn after turn, and passes
to `sendMessage`.

`std::cin` is the text that is typed up to its end.  What the thread prints is left out.
-/

namespace Cimabue

/-- What the console thread asks for: the variables, and what they are called in `init`. -/
structure Settings where
  nickname : Bytes := []
  localPort : Bytes := []
  serverIp : Bytes := []
  serverPort : Bytes := []
deriving DecidableEq

namespace Settings

/-- The four readings. -/
def ask (input : IStream Byte) : Settings × IStream Byte :=
  let (nickname, input) := input.extract isSpace []
  let (localPort, input) := input.extract isSpace []
  let (serverIp, input) := input.extract isSpace []
  let (serverPort, input) := input.extract isSpace []
  ({ nickname, localPort, serverIp, serverPort }, input)

/-- A `\` stands for the default. -/
def orDefault (default word : Bytes) : Bytes := if word = lit "\\" then default else word

/-- The defaults. -/
def applyDefaults (s : Settings) : Settings where
  nickname := orDefault (lit "user") s.nickname
  localPort := orDefault (lit "6000") s.localPort
  serverIp := orDefault (lit "172.16.17.131") s.serverIp
  serverPort := orDefault (lit "8000") s.serverPort

end Settings

/-- The loop of the console thread: its input, and the variables it reads into. -/
structure ConsoleThread where
  input : IStream Byte
  destination : Bytes := []
  message : Bytes := []
deriving DecidableEq

/-- The readings of a turn.  At the end of the text a variable keeps what it holds. -/
def ConsoleThread.turn (c : ConsoleThread) : ConsoleThread :=
  let (destination, input) := c.input.extract isSpace c.destination
  let (message, input) := input.extract isSpace c.message
  { input, destination, message }

end Cimabue
