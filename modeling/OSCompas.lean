import OSCompas.Lib.ByteMemory
import OSCompas.Lib.Chain
import OSCompas.Lib.Intrusive
import OSCompas.Lib.Runs
import OSCompas.Lib.Span
import OSCompas.Memory.Model
import OSCompas.Memory.FreeList
import OSCompas.Memory.Layout
import OSCompas.Memory.Calls
import OSCompas.Memory.Safety
import OSCompas.Memory.Accounting
import OSCompas.Scheduler.Model
import OSCompas.Scheduler.Queues
import OSCompas.Scheduler.Effects
import OSCompas.Scheduler.Lists
import OSCompas.Scheduler.Calls
import OSCompas.Scheduler.WellFormed
import OSCompas.Scheduler.NoLoss
import OSCompas.Scheduler.Dead
import OSCompas.Scheduler.Running
import OSCompas.Kernel.Dead
import OSCompas.Kernel.Idle
import OSCompas.Kernel.Places
import OSCompas.Kernel.Work
import OSCompas.Kernel.Sleep
import OSCompas.Memory.Provision
import OSCompas.Lib.LinkScript
import OSCompas.Memory.Fragmentation
import OSCompas.Memory.Link
import OSCompas.Scheduler.Boost
import OSCompas.Scheduler.Batch
import OSCompas.Scheduler.Fifo
import OSCompas.Lib.Turns
import OSCompas.Scheduler.RoundRobin
import OSCompas.Scheduler.Time
import OSCompas.Scheduler.Concat
import OSCompas.Scheduler.Rotate
import OSCompas.Scheduler.Walk
import OSCompas.Scheduler.Vacancy
import OSCompas.Scheduler.Survivors
import OSCompas.Scheduler.Requeue
import OSCompas.Scheduler.Unknown
import OSCompas.Scheduler.Slices
import OSCompas.Scheduler.Dispatch
import OSCompas.Scheduler.Quantum
import OSCompas.Scheduler.Cadence
import OSCompas.Lib.Locking
import OSCompas.Kernel.Lock
import OSCompas.Kernel.Stacks
import OSCompas.Kernel.Fresh
import OSCompas.Lib.X86
import OSCompas.Switch.Arch
import OSCompas.Switch.Lab
import OSCompas.Lib.RiscV
import OSCompas.Trap.Entry
import OSCompas.Lib.Varint
import OSCompas.Mqtt.Packet
import OSCompas.Mqtt.Client
import OSCompas.Mqtt.Session
import OSCompas.Lib.Digits
import OSCompas.Lib.NamedPipe
import OSCompas.Lib.Regex
import OSCompas.Lib.Wave
import OSCompas.Memory.Blocks
import OSCompas.Memory.Contents
import OSCompas.Memory.Dump
import OSCompas.Memory.Reject
import OSCompas.Pipe.Programs
import OSCompas.Print.Printf
import OSCompas.Sensor.Dht
import OSCompas.Sensor.Threads
import OSCompas.Strace.Exact
import OSCompas.Memory.BestFit
import OSCompas.Lib.Linked
import OSCompas.Kernel.SleepQueue
import OSCompas.Kernel.Times
import OSCompas.Kernel.Accounts
import OSCompas.Kernel.Utilization
import OSCompas.Kernel.Priority
import OSCompas.Kernel.Configuration
import OSCompas.Lib.Interrupt
import OSCompas.Switch.Interrupt
import OSCompas.Lib.Smp
import OSCompas.Switch.SpinLock
import OSCompas.Timer.Sleep
import OSCompas.Lib.Chunks
import OSCompas.Print.Bounds
import OSCompas.Print.Scan
import OSCompas.Lib.Backfill
import OSCompas.Print.Numbers
import OSCompas.Mqtt.Connect
import OSCompas.Mqtt.Overrun
import OSCompas.Lib.Pieces
import OSCompas.Mqtt.Chunking
import OSCompas.Mqtt.Tcp
import OSCompas.Lib.Samples
import OSCompas.Sensor.Reads
import OSCompas.Lib.Countdown
import OSCompas.Sensor.Delay
import OSCompas.Lib.Holdings
import OSCompas.Gpio.Driver
import OSCompas.Scheduler.Dequeue
import OSCompas.Scheduler.Slots
import OSCompas.Lib.Words
import OSCompas.Lib.Awk
import OSCompas.Lib.Forest
import OSCompas.Monitor.Stat
import OSCompas.Monitor.Tree
import OSCompas.Lib.Progress
import OSCompas.Rpc.Framework
import OSCompas.Rpc.Progress
import OSCompas.Uintr.Protocol
import OSCompas.Lib.Raster
import OSCompas.Display.Oled
import OSCompas.Display.Text
import OSCompas.Gpio.Button
import OSCompas.Lib.Softirq
import OSCompas.Gpio.Pwm
import OSCompas.Lib.Tally
import OSCompas.Strace.Report
import OSCompas.Lib.Walk
import OSCompas.Monitor.Psutil
import OSCompas.Switch.User
