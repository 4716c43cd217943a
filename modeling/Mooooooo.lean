import Mooooooo.Lib.Bytes
import Mooooooo.Lib.Cmd
import Mooooooo.Lib.Component
import Mooooooo.Lib.Mailbox
import Mooooooo.Lib.Regions
import Mooooooo.Lib.Flat
import Mooooooo.Lib.Window
import Mooooooo.Lib.Lines
import Mooooooo.Lib.Tables
import Mooooooo.Spec.Registers
import Mooooooo.Spec.Gic
import Mooooooo.Spec.Memory
import Mooooooo.Spec.Run
import Mooooooo.Spec.Hooks
import Mooooooo.Spec.Uart
import Mooooooo.Spec.Walk
import Mooooooo.Spec.Levels
import Mooooooo.Spec.Exception
import Mooooooo.Spec.Loader
import Mooooooo.Spec.Devices
import Mooooooo.Spec.Emulator
import Mooooooo.Spec.Main
import Mooooooo.Proof.GicStep
import Mooooooo.Proof.Routing
import Mooooooo.Proof.Sgi
import Mooooooo.Proof.Isolation
import Mooooooo.Proof.Mapping
import Mooooooo.Proof.Dram
import Mooooooo.Proof.Schedule
import Mooooooo.Proof.Fairness
import Mooooooo.Proof.Injections
import Mooooooo.Proof.Handler
import Mooooooo.Proof.Registers
import Mooooooo.Proof.Lanes
import Mooooooo.Proof.Hooks
import Mooooooo.Proof.Uart
import Mooooooo.Proof.Walk
import Mooooooo.Proof.Levels
import Mooooooo.Proof.Translation
import Mooooooo.Proof.Exception
import Mooooooo.Proof.Engine
import Mooooooo.Proof.Smc
import Mooooooo.Proof.Svc
import Mooooooo.Proof.Frame
import Mooooooo.Proof.Loader
import Mooooooo.Proof.Emulator
import Mooooooo.Proof.Refinement
import Mooooooo.Proof.Memory
import Mooooooo.Proof.Devices
import Mooooooo.Proof.Calls
import Mooooooo.Proof.Lifecycle
import Mooooooo.Proof.Boot
import Mooooooo.Proof.Delivery
import Mooooooo.Proof.Machine
import Mooooooo.Proof.Main
import Mooooooo.Proof.Faults
import Mooooooo.Proof.Fetch
import Mooooooo.Proof.WalkMemory
