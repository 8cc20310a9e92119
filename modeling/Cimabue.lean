import Cimabue.Support.Machine
import Cimabue.Support.Locks
import Cimabue.Wire.RoundTrip
import Cimabue.Wire.ListCodec
import Cimabue.Wire.Address
import Cimabue.System.Relay
import Cimabue.System.Serial
import Cimabue.System.ClientList
import Cimabue.System.Sweep
import Cimabue.System.Registration
import Cimabue.System.Status
import Cimabue.System.Views
import Cimabue.Threads.Reception
import Cimabue.Threads.Sockets
import Cimabue.Threads.Locking
import Cimabue.Threads.Registry
import Cimabue.Threads.Forwarding
import Cimabue.Threads.Directory
import Cimabue.Threads.Host
import Cimabue.Threads.Service
import Cimabue.Threads.Waits
import Cimabue.System.Chatroom
import Cimabue.System.Survival
import Cimabue.System.Rounds
import Cimabue.System.Typing
import Cimabue.System.Observers
import Cimabue.System.Memory
import Cimabue.Threads.Memory
